import ShiftReduce.Tree.Basic

/-!
# Equality of parse trees

Whether two trees agree in shape, tags, values and productions can be decided when this is so for
their values.
-/

namespace ShiftReduce.Tree

variable {α : Type}

mutual

/-- Decides whether two trees agree in every tag, value and production. -/
def decEq [DecidableEq α] : (s t : Tree α) → Decidable (s = t)
  | blank a, blank b =>
    if h : a = b then isTrue (by rw [h]) else isFalse (by simp [h])
  | leaf a x, leaf b y =>
    if h : a = b ∧ x = y then isTrue (by rw [h.1, h.2])
    else isFalse (by simpa using h)
  | wrap a s, wrap b t =>
    match decEq s t with
    | isTrue hst => if h : a = b then isTrue (by rw [h, hst]) else isFalse (by simp [h])
    | isFalse hst => isFalse (by simp [hst])
  | node a p ss, node b q ts =>
    match decEqAll ss ts with
    | isTrue hst =>
      if h : a = b ∧ p = q then isTrue (by rw [h.1, h.2, hst])
      else isFalse (fun e => by
        injection e with e1 e2
        exact h ⟨e1, e2⟩)
    | isFalse hst => isFalse (by simp [hst])
  | blank _, leaf _ _ => isFalse (by simp)
  | blank _, wrap _ _ => isFalse (by simp)
  | blank _, node _ _ _ => isFalse (by simp)
  | leaf _ _, blank _ => isFalse (by simp)
  | leaf _ _, wrap _ _ => isFalse (by simp)
  | leaf _ _, node _ _ _ => isFalse (by simp)
  | wrap _ _, blank _ => isFalse (by simp)
  | wrap _ _, leaf _ _ => isFalse (by simp)
  | wrap _ _, node _ _ _ => isFalse (by simp)
  | node _ _ _, blank _ => isFalse (by simp)
  | node _ _ _, leaf _ _ => isFalse (by simp)
  | node _ _ _, wrap _ _ => isFalse (by simp)

/-- Decides whether two lists of trees are equal. -/
def decEqAll [DecidableEq α] : (ss ts : List (Tree α)) → Decidable (ss = ts)
  | [], [] => isTrue rfl
  | [], _ :: _ => isFalse (by simp)
  | _ :: _, [] => isFalse (by simp)
  | s :: ss, t :: ts =>
    match decEq s t, decEqAll ss ts with
    | isTrue h, isTrue hs => isTrue (by rw [h, hs])
    | isFalse h, _ => isFalse (by simp [h])
    | _, isFalse hs => isFalse (by simp [hs])

end

instance [DecidableEq α] : DecidableEq (Tree α) := decEq

end ShiftReduce.Tree
