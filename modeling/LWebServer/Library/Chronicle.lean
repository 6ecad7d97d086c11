import Mathlib.Data.List.Basic

/-!
# Histories

A list of events each of which is as stated in view of those before it.
-/

namespace LWebServer

variable {α : Type*} {p q : List α → α → Prop} {items : List α} {item : α}

/-- Each item is as stated in view of those before it. -/
def Chronicled (p : List α → α → Prop) (items : List α) : Prop :=
  ∀ past item, past ++ [item] <+: items → p past item

theorem chronicled_nil (p : List α → α → Prop) : Chronicled p [] := by
  intro past item hpast
  have hnil := List.prefix_nil.mp hpast
  exact absurd hnil (List.append_ne_nil_of_right_ne_nil _ (List.cons_ne_nil _ _))

/-- One more item. -/
theorem Chronicled.snoc (hitems : Chronicled p items) (hitem : p items item) :
    Chronicled p (items ++ [item]) := by
  intro past last hpast
  rcases List.prefix_concat_iff.mp hpast with hwhole | hbefore
  · obtain ⟨rfl, hlast⟩ := List.append_inj' hwhole rfl
    obtain rfl := List.singleton_injective hlast
    exact hitem
  · exact hitems past last hbefore

end LWebServer
