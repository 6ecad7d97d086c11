import LWebServer.Base.Bytes

/-!
# Request methods, parser states and character classes

The enumerations of the HTTP layer and the three predicates that say which characters a URI, a
header name and a header value may hold.
-/

namespace LWebServer

/-- `ws::HttpStatusCode`. -/
inductive HttpStatusCode where
  | hscInit | hscOK | hscNoContent | hscPartialContent
  | hscMovedPermanently | hscFound | hscSeeOther | hscNotModified | hscTemporaryRedirect
  | hscBadRequest | hscUnauthorized | hscForbidden | hscNotFound
  | hscInternalServerError | hscServiceUnavailable | khcGatewayTimeout
  | khcHttpVersionNotSupported
  deriving DecidableEq, Repr

namespace HttpStatusCode

/-- The number behind the enumerator. -/
def code : HttpStatusCode → ℕ
  | hscInit => 0
  | hscOK => 200
  | hscNoContent => 204
  | hscPartialContent => 206
  | hscMovedPermanently => 301
  | hscFound => 302
  | hscSeeOther => 303
  | hscNotModified => 304
  | hscTemporaryRedirect => 307
  | hscBadRequest => 400
  | hscUnauthorized => 401
  | hscForbidden => 403
  | hscNotFound => 404
  | hscInternalServerError => 500
  | hscServiceUnavailable => 503
  | khcGatewayTimeout => 504
  | khcHttpVersionNotSupported => 505

/-- `StatusCode_to_String`. -/
def statusCodeToString : HttpStatusCode → String
  | hscOK => "OK"
  | hscNoContent => "No Content"
  | hscPartialContent => "Partial Content"
  | hscMovedPermanently => "Moved Permanently"
  | hscFound => "Found"
  | hscSeeOther => "See Other"
  | hscNotModified => "Not Modified"
  | hscTemporaryRedirect => "Temporary Redirect"
  | hscBadRequest => "Bad Request"
  | hscUnauthorized => "Unauthorized"
  | hscForbidden => "Forbidden"
  | hscNotFound => "Not Found"
  | hscInternalServerError => "Internal Server Error"
  | hscServiceUnavailable => "Service Unavailable"
  | khcGatewayTimeout => "Gateway Timeout"
  | khcHttpVersionNotSupported => "Http Version Not Supported"
  | hscInit => "Parser error, Don't have this httpstatuscode"

end HttpStatusCode

/-- `ws::HttpRequestMethod`. -/
inductive HttpRequestMethod where
  | hrGet | hrHead | hrDelete | hrPost | hrPut | hrOptions | hrInit
  deriving DecidableEq, Repr

/-- `ws::HttpFlag`. -/
inductive HttpFlag where
  | close | keepAlive
  deriving DecidableEq, Repr

/-- `ws::HttpParserStatus`, the states of the request parser. -/
inductive HttpParserStatus where
  | hpsOK | hpsGameOver
  | hpsGet | hpsPost | hpsOption | hpsHead | hpsDelete
  | hpsBetweenMU | hpsUriStart | hpsUriParser | hpsUriEnd
  | hpsVersionMajor | hpsVersionMinor | hpsVersionEnd
  | hpsLF | hpsCRLFCR
  | hpsHeader | hpsColon | hpsHeaderValue | hpsStoreHeader
  deriving DecidableEq, Repr

/-- `ws::HttpParserFault`. `hpfContent` is the success code: the head is complete. -/
inductive HttpParserFault where
  | hpfOK | hpfToLittleMessage | hpfInvaildMethod | hpfBetweenMethodURINoBlank
  | hpfInvaildUri | hpfInvaildVersion | hpfNoSupportVersion | hpfInvaildHeader
  | hpfInvaildHeaderValue | hpfContentLength | hpfSetConnection | hpfContent
  | hpfCRLFCR | hpfContentNonatchLength
  deriving DecidableEq, Repr

/-! ## Character classes -/

def isDigit (c : Byte) : Bool := ascii '0' ≤ c && c ≤ ascii '9'

def isAlnum (c : Byte) : Bool :=
  isDigit c || (ascii 'A' ≤ c && c ≤ ascii 'Z') || (ascii 'a' ≤ c && c ≤ ascii 'z')

def isHeader (c : Byte) : Bool := isAlnum c || c = ascii '-' || c = ascii '_'

/-- The characters for which the table `is_uri` holds `true`. -/
def isUriChars : List Byte :=
  text "#$%&+,-./0123456789:;=?@ABCDEFGHIJKLMNOPQRSTUVWXYZ_abcdefghijklmnopqrstuvwxyz"

def isUri (c : Byte) : Bool := isUriChars.contains c

/-- The table `is_value` holds `true` exactly on the printable characters, the blank included. -/
def isValue (c : Byte) : Bool := ascii ' ' ≤ c && c ≤ ascii '~'

end LWebServer
