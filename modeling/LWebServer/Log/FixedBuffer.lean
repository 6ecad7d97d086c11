import LWebServer.Base.Bytes

/-!
# Buffers of the log

`FixedBuffer` is an array with a position `Spot`. Only what lies before `Spot` is ever read.
-/

namespace LWebServer

/-- `ws::detail::LargerBuffer` -/
def largerBuffer : ℕ := 4048 * 1000

/-- `ws::detail::FixedBuffer`: the bytes before `Spot`. -/
structure FixedBuffer (bufferSize : ℕ) where
  content : List Byte
  length_le : content.length ≤ bufferSize

namespace FixedBuffer

variable {bufferSize : ℕ}

/-- A buffer that has just been built. -/
def new : FixedBuffer bufferSize := ⟨[], Nat.zero_le bufferSize⟩

def avail (b : FixedBuffer bufferSize) : ℕ := bufferSize - b.content.length

/-- `append`, which does nothing if there is not more room than it needs. -/
def append (buf : List Byte) (b : FixedBuffer bufferSize) : FixedBuffer bufferSize :=
  if hroom : buf.length < b.avail then
    ⟨b.content ++ buf, by
      unfold avail at hroom
      rw [List.length_append]
      omega⟩
  else b

/-- `setSpotBegin`; what was in the buffer does not matter. -/
def setSpotBegin (_ : FixedBuffer bufferSize) : FixedBuffer bufferSize := new

@[simp]
theorem content_new : (new : FixedBuffer bufferSize).content = [] := rfl

@[simp]
theorem content_setSpotBegin (b : FixedBuffer bufferSize) : b.setSpotBegin.content = [] := rfl

@[simp]
theorem avail_new : (new : FixedBuffer bufferSize).avail = bufferSize := rfl

theorem content_append {buf : List Byte} {b : FixedBuffer bufferSize}
    (hroom : buf.length < b.avail) : (b.append buf).content = b.content ++ buf := by
  rw [append, dif_pos hroom]

/-- A buffer with nothing in it takes every line that is shorter than the buffer. -/
theorem content_append_of_empty {buf : List Byte} {b : FixedBuffer bufferSize}
    (hempty : b.content = []) (hshort : buf.length < bufferSize) :
    (b.append buf).content = buf := by
  have hroom : buf.length < b.avail := by
    rw [avail, hempty]
    exact hshort
  rw [content_append hroom, hempty, List.nil_append]

end FixedBuffer

end LWebServer
