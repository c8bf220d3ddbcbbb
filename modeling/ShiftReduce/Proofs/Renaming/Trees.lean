import ShiftReduce.Proofs.Parser.Marks
import ShiftReduce.Proofs.Renaming.Tables

/-!
# Renamed trees

A token is renumbered by giving other names to its symbols.  What a parser makes of tokens holds
states and productions as well: the states that it has recorded and the productions that it has
reduced.  Parse trees are the same but for names when every node carries the renamed tag and the
renamed production, and every token the renumbered content.

* `Tree.renumber`, `Pull.map`: tokens and their sources with other names for symbols;
* `Tree.Renamed`, with `Tree.Renamed.induct`: parse trees that are the same but for names;
* `Tree.Renamed.isError_eq`: they are marked alike;
* `Tree.Renamed.stamp`, `Tree.Renamed.relabel`, `Tree.Renamed.reduction`: how trees are built.
-/

namespace ShiftReduce

/-! ## Names replaced by others -/

/-- The tag with another name for its symbol. -/
def Tag.renumber (σ : Nat → Nat) (tag : Tag) : Tag := { tag with symbol := tag.symbol.map σ }

/-- The tag with other names for its symbol and its state.  A mark is no state and stays. -/
def Tag.rename (σ ρ : Nat → Nat) (tag : Tag) : Tag where
  symbol := tag.symbol.map σ
  state := if tag.state < 0 then tag.state else (ρ tag.state.toNat : Nat)

theorem Tag.state_rename_lt_zero_iff {σ ρ : Nat → Nat} (tag : Tag) :
    (tag.rename σ ρ).state < 0 ↔ tag.state < 0 := by
  unfold Tag.rename
  dsimp only
  split
  · rfl
  · next hstate => exact iff_of_false (Int.not_lt.2 (Int.natCast_nonneg _)) hstate

/-- The tag of a tree with the state `q` recorded. -/
theorem Tag.rename_recorded {σ ρ : Nat → Nat} (tag : Tag) (q : Nat) :
    ({ tag with state := (q : Int) } : Tag).rename σ ρ =
      { tag.rename σ ρ with state := (ρ q : Nat) } := by
  have hq : ¬ (q : Int) < 0 := Int.not_lt.2 (Int.natCast_nonneg q)
  simp only [Tag.rename, if_neg hq, Int.toNat_natCast]

/-- The tag of a new tree, which is marked or has been given no state yet. -/
theorem Tag.rename_fresh {σ ρ : Nat → Nat} (hzero : ρ 0 = 0) (symbol : Nat) (marked : Bool) :
    ({ symbol := some symbol, state := if marked then Tree.errorState else 0 } : Tag).rename σ ρ =
      { symbol := some (σ symbol), state := if marked then Tree.errorState else 0 } := by
  cases marked with
  | true => rfl
  | false => simp [Tag.rename, hzero]

/-- The answer of a source with another token in it. -/
def Pull.map {α ε : Type} (f : Tree α → Tree α) : Pull α ε → Pull α ε
  | token t => token (f t)
  | fault error => fault error
  | stop => stop

namespace Tree

variable {α : Type}

mutual

/-- The token with other names for all its symbols. -/
def renumber (σ : Nat → Nat) : Tree α → Tree α
  | blank tag => blank (tag.renumber σ)
  | leaf tag value => leaf (tag.renumber σ) value
  | wrap tag inner => wrap (tag.renumber σ) (inner.renumber σ)
  | node tag production children => node (tag.renumber σ) production (renumberAll σ children)

/-- The tokens with other names for all their symbols. -/
def renumberAll (σ : Nat → Nat) : List (Tree α) → List (Tree α)
  | [] => []
  | t :: ts => t.renumber σ :: renumberAll σ ts

end

variable {σ π ρ : Nat → Nat}

@[simp]
theorem tag_renumber (t : Tree α) : (t.renumber σ).tag = t.tag.renumber σ := by
  cases t <;> rw [renumber, tag, tag]

@[simp]
theorem symbol_renumber (t : Tree α) : (t.renumber σ).symbol = t.symbol.map σ := by
  rw [symbol, tag_renumber]
  rfl

@[simp]
theorem renumber_endOfInput : (endOfInput : Tree α).renumber σ = endOfInput := by
  rw [endOfInput, renumber]
  rfl

theorem anyError_renumberAll {ts : List (Tree α)}
    (h : ∀ t ∈ ts, (t.renumber σ).isError = t.isError) :
    anyError (renumberAll σ ts) = anyError ts := by
  induction ts with
  | nil => rw [renumberAll]
  | cons t ts ih =>
    rw [renumberAll, anyError, anyError, h t List.mem_cons_self,
      ih fun u hu => h u (List.mem_cons_of_mem t hu)]

/-- Marks have nothing to do with symbols. -/
theorem isError_renumber (t : Tree α) : (t.renumber σ).isError = t.isError := by
  induction t using Tree.induct with
  | blank => rw [renumber, isError, isError, Tag.renumber]
  | leaf => rw [renumber, isError, isError, Tag.renumber]
  | wrap tag inner ih => rw [renumber, isError, isError, Tag.renumber, ih]
  | node tag production children ih =>
    rw [renumber, isError, isError, Tag.renumber, anyError_renumberAll ih]

/-! ## Parse trees -/

/-- The parse trees are the same but for the names of symbols, productions and states. -/
inductive Renamed (σ π ρ : Nat → Nat) : Tree α → Tree α → Prop
  /-- The content of a token under the tag that it has been given. -/
  | token (t : Tree α) (tag : Tag) :
    Renamed σ π ρ (t.withTag tag) ((t.renumber σ).withTag (tag.rename σ ρ))
  /-- The reduction of a production. -/
  | node (tag : Tag) (production : Nat) {ts ts' : List (Tree α)}
    (h : List.Forall₂ (Renamed σ π ρ) ts ts') :
    Renamed σ π ρ (.node tag production ts) (.node (tag.rename σ ρ) (π production) ts')

namespace Renamed

variable {t t' : Tree α}

/-- What holds of tokens, and of nodes when it holds of their children, holds of all renamed trees.
-/
theorem induct {P : Tree α → Tree α → Prop}
    (token : ∀ (t : Tree α) (tag : Tag),
      P (t.withTag tag) ((t.renumber σ).withTag (tag.rename σ ρ)))
    (node : ∀ (tag : Tag) (production : Nat) (ts ts' : List (Tree α)), List.Forall₂ P ts ts' →
      P (.node tag production ts) (.node (tag.rename σ ρ) (π production) ts'))
    (h : Renamed σ π ρ t t') : P t t' :=
  @Tree.Renamed.rec α σ π ρ (fun t t' _ => P t t') (fun ts ts' _ => List.Forall₂ P ts ts') token
    (fun tag production _ _ _ hts => node tag production _ _ hts) .nil
    (fun _ _ hhead htail => .cons hhead htail) t t' h

theorem tag_eq (h : Renamed σ π ρ t t') : t'.tag = t.tag.rename σ ρ := by
  cases h with
  | token t tag => rw [tag_withTag, tag_withTag]
  | node => rfl

theorem withTag (h : Renamed σ π ρ t t') (tag : Tag) :
    Renamed σ π ρ (t.withTag tag) (t'.withTag (tag.rename σ ρ)) := by
  cases h with
  | token t tag' =>
    rw [withTag_withTag, withTag_withTag]
    exact .token t tag
  | node tag' production hts => exact .node tag production hts

theorem state_lt_zero_iff (h : Renamed σ π ρ t t') : t'.state < 0 ↔ t.state < 0 := by
  rw [state, h.tag_eq]
  exact t.tag.state_rename_lt_zero_iff

theorem anyError_eq {ts ts' : List (Tree α)}
    (h : List.Forall₂ (fun t t' : Tree α => t'.isError = t.isError) ts ts') :
    anyError ts' = anyError ts := by
  induction h with
  | nil => rfl
  | cons htree _ ih => rw [anyError, anyError, htree, ih]

/-- Renamed trees are marked alike. -/
theorem isError_eq (h : Renamed σ π ρ t t') : t'.isError = t.isError := by
  refine h.induct (P := fun t t' => t'.isError = t.isError) ?_ ?_
  · intro t tag
    have htag : decide ((tag.rename σ ρ).state < 0) = decide (tag.state < 0) :=
      decide_eq_decide.2 tag.state_rename_lt_zero_iff
    cases t with
    | blank => rw [renumber, Tree.withTag, Tree.withTag, isError, isError, htag]
    | leaf => rw [renumber, Tree.withTag, Tree.withTag, isError, isError, htag]
    | wrap tag' inner =>
      rw [renumber, Tree.withTag, Tree.withTag, isError, isError, htag, isError_renumber]
    | node tag' production children =>
      rw [renumber, Tree.withTag, Tree.withTag, isError, isError, htag,
        anyError_renumberAll fun t _ => isError_renumber t]
  · intro tag production ts ts' hts
    rw [isError, isError, anyError_eq hts, decide_eq_decide.2 tag.state_rename_lt_zero_iff]

theorem anyError_eq_of_forall₂ {ts ts' : List (Tree α)}
    (h : List.Forall₂ (Renamed σ π ρ) ts ts') : anyError ts' = anyError ts :=
  anyError_eq (h.imp fun _ _ htree => htree.isError_eq)

/-! ## How trees are built -/

/-- A token that has been marked. -/
theorem of_marked (t : Tree α) {s : Int} (hs : s < 0) :
    Renamed σ π ρ (t.withState s) ((t.renumber σ).withState s) := by
  have htoken := Renamed.token (σ := σ) (π := π) (ρ := ρ) t { t.tag with state := s }
  rw [Tag.rename, if_pos hs] at htoken
  rw [withState, withState, tag_renumber]
  exact htoken

/-- A token is put on the stack. -/
theorem stamp_token (t : Tree α) (q : Nat) :
    Renamed σ π ρ (stamp q t) (stamp (ρ q) (t.renumber σ)) := by
  have hstate : (t.renumber σ).state = t.state := by
    rw [state, tag_renumber]
    rfl
  unfold stamp
  rw [hstate]
  split
  · next hmark =>
    have hmarked := of_marked (σ := σ) (π := π) (ρ := ρ) t hmark
    rwa [withState_state, ← hstate, withState_state] at hmarked
  · have htoken := Renamed.token (σ := σ) (π := π) (ρ := ρ) t { t.tag with state := (q : Int) }
    rw [Tag.rename_recorded] at htoken
    rw [withState, withState, tag_renumber]
    exact htoken

/-- So is a tree. -/
theorem stamp (h : Renamed σ π ρ t t') (q : Nat) :
    Renamed σ π ρ (stamp q t) (stamp (ρ q) t') := by
  unfold ShiftReduce.stamp
  by_cases hmark : t.state < 0
  · rw [if_pos hmark, if_pos (h.state_lt_zero_iff.2 hmark)]
    exact h
  · rw [if_neg hmark, if_neg fun hmark' => hmark (h.state_lt_zero_iff.1 hmark'), withState,
      withState, h.tag_eq, ← Tag.rename_recorded]
    exact h.withTag _

theorem relabel (h : Renamed σ π ρ t t') (hzero : ρ 0 = 0) (symbol : Nat) :
    Renamed σ π ρ (t.relabel symbol) (t'.relabel (σ symbol)) := by
  have htag := h.withTag { symbol := some symbol, state := if t.isError then errorState else 0 }
  rw [Tag.rename_fresh hzero] at htag
  rw [Tree.relabel, Tree.relabel, h.isError_eq]
  exact htag

theorem reduction {ts ts' : List (Tree α)} (h : List.Forall₂ (Renamed σ π ρ) ts ts')
    (hzero : ρ 0 = 0) (symbol production : Nat) :
    Renamed σ π ρ (Tree.reduction symbol production ts)
      (Tree.reduction (σ symbol) (π production) ts') := by
  have hnode := Renamed.node
    { symbol := some symbol, state := if anyError ts then errorState else 0 } production h
  rw [Tag.rename_fresh hzero] at hnode
  rw [Tree.reduction, Tree.reduction, anyError_eq_of_forall₂ h]
  exact hnode

end Renamed

end Tree

end ShiftReduce
