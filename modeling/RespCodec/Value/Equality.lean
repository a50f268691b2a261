/-
# Equality of values

Two values are equal if kind, data and attributes are, at every level.  The
four functions below decide that, one for each sort of part a value has.
-/

import RespCodec.Value.Basic

namespace RespCodec
namespace Value

mutual

private def decideEq : (v w : Value) → Decidable (v = w)
  | ⟨k, d, a⟩, ⟨k', d', a'⟩ =>
    match decEq k k', decideEqData d d', decideEqOption a a' with
    | isTrue hk, isTrue hd, isTrue ha => isTrue (by rw [hk, hd, ha])
    | isFalse h, _, _ => isFalse (by intro e; cases e; exact h rfl)
    | _, isFalse h, _ => isFalse (by intro e; cases e; exact h rfl)
    | _, _, isFalse h => isFalse (by intro e; cases e; exact h rfl)
termination_by structural v => v

private def decideEqData : (d e : Data Value) → Decidable (d = e)
  | .elements vs, .elements ws =>
    match decideEqList vs ws with
    | isTrue h => isTrue (by rw [h])
    | isFalse h => isFalse (by intro e; cases e; exact h rfl)
  | .str s, .str t => decidable_of_iff (s = t) (by simp)
  | .int m, .int n => decidable_of_iff (m = n) (by simp)
  | .null, .null => isTrue rfl
  | .elements _, .str _ | .elements _, .int _ | .elements _, .null
  | .str _, .elements _ | .str _, .int _ | .str _, .null
  | .int _, .elements _ | .int _, .str _ | .int _, .null
  | .null, .elements _ | .null, .str _ | .null, .int _ => isFalse (by simp)
termination_by structural d => d

private def decideEqList : (vs ws : List Value) → Decidable (vs = ws)
  | [], [] => isTrue rfl
  | [], _ :: _ | _ :: _, [] => isFalse (by simp)
  | v :: vs, w :: ws =>
    match decideEq v w, decideEqList vs ws with
    | isTrue h, isTrue h' => isTrue (by rw [h, h'])
    | isFalse h, _ => isFalse (by intro e; cases e; exact h rfl)
    | _, isFalse h => isFalse (by intro e; cases e; exact h rfl)
termination_by structural vs => vs

private def decideEqOption : (a b : Option Value) → Decidable (a = b)
  | none, none => isTrue rfl
  | none, some _ | some _, none => isFalse (by simp)
  | some v, some w =>
    match decideEq v w with
    | isTrue h => isTrue (by rw [h])
    | isFalse h => isFalse (by intro e; cases e; exact h rfl)
termination_by structural a => a

end

instance : DecidableEq Value := decideEq

/-- Attributes count: a value differs from the same value without them. -/
example : (Value.null.withAttributes (.attributesUnit [])) ≠ Value.null := by decide

end Value
end RespCodec
