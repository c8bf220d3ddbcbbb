import ShiftReduce.Proofs.Parser.Alike
import ShiftReduce.Proofs.Parser.Marks

/-!
# Trimming leaves out unit reductions and nothing else

A parser that trims puts the content of the only child in the place of a reduction by a unit rule,
at the moment of the reduction: the symbol is new, the state is fresh, and so is the mark.  In the
end the tree is the one that a parser without trimming builds, with its unit reductions taken out
from the bottom up, where every tree keeps its symbol and its state.

The two runs go side by side.  What the relation between their trees has to say besides is that a
tree on the stack is marked itself if anything in it is, for otherwise a mark below would be lost
with the reduction that is left out.

* `Tree.trimmed`: the tree without its unit reductions;
* `Tree.Trims`: what the trees on the stacks of the two runs have to do with each other;
* `Tree.Trims.stamp`, `Parser.trims_reduce`: states and reductions keep it;
* `Parser.alike_of_trim`: the two parsers, with the same rules and the same table;
* `Parser.trimming_leaves_out_units`: whole runs.
-/

namespace ShiftReduce

/-- Whether the production with this index is a unit production. -/
def Cfg.isUnitAt (g : Cfg) (production : Nat) : Bool :=
  (g.rules[production]?).any (Parser.isUnit g)

namespace Tree

variable {α : Type}

/-! ## Taking out unit reductions -/

mutual

/-- The tree without its unit reductions, from the bottom up: what stands for the only child has its
content put under the tag of the reduction. -/
def trimmed (g : Cfg) : Tree α → Tree α
  | blank tag => blank tag
  | leaf tag value => leaf tag value
  | wrap tag inner => wrap tag (inner.trimmed g)
  | node tag production children =>
    match trimmedAll g children with
    | [only] => if g.isUnitAt production then only.withTag tag else node tag production [only]
    | children => node tag production children

/-- The trees of a list without their unit reductions. -/
def trimmedAll (g : Cfg) : List (Tree α) → List (Tree α)
  | [] => []
  | t :: ts => t.trimmed g :: trimmedAll g ts

end

/-- Whether the tree is a token without subtrees. -/
def isSimple : Tree α → Bool
  | blank _ => true
  | leaf _ _ => true
  | _ => false

variable {g : Cfg}

theorem trimmedAll_eq_map (ts : List (Tree α)) : trimmedAll g ts = ts.map (trimmed g) := by
  induction ts with
  | nil => rw [trimmedAll, List.map_nil]
  | cons t ts ih => rw [trimmedAll, ih, List.map_cons]

theorem trimmed_of_isSimple {t : Tree α} (h : t.isSimple = true) : t.trimmed g = t := by
  cases t with
  | blank => rw [trimmed]
  | leaf => rw [trimmed]
  | wrap => cases h
  | node => cases h

theorem trimmed_withTag (t : Tree α) (tag : Tag) :
    (t.withTag tag).trimmed g = (t.trimmed g).withTag tag := by
  cases t with
  | blank => simp only [withTag, trimmed]
  | leaf => simp only [withTag, trimmed]
  | wrap => simp only [withTag, trimmed]
  | node tag' production children =>
    rw [withTag, trimmed, trimmed]
    split
    · split
      · exact (withTag_withTag _ _ _).symm
      · rfl
    · rfl

@[simp]
theorem tag_trimmed (t : Tree α) : (t.trimmed g).tag = t.tag := by
  cases t with
  | blank => rw [trimmed]
  | leaf => rw [trimmed]
  | wrap => rw [trimmed, tag, tag]
  | node tag' production children =>
    rw [trimmed]
    split
    · split
      · rw [tag_withTag, tag]
      · rfl
    · rfl

/-- A tree that is not marked keeps that under another tag that is not a mark. -/
theorem isError_withTag_eq_false {t : Tree α} {tag : Tag} (h : t.isError = false)
    (htag : ¬ tag.state < 0) : (t.withTag tag).isError = false := by
  cases t <;> simp_all [withTag, isError]

theorem anyError_eq_false {ts : List (Tree α)} :
    anyError ts = false ↔ ∀ t ∈ ts, t.isError = false := by
  rw [Bool.eq_false_iff, ne_eq, anyError_iff]
  simp

/-- No mark comes in when reductions are taken out. -/
theorem isError_trimmed_eq_false {t : Tree α} (h : t.isError = false) :
    (t.trimmed g).isError = false := by
  induction t using Tree.induct with
  | blank => rw [trimmed, h]
  | leaf => rw [trimmed, h]
  | wrap tag inner ih =>
    simp only [isError, Bool.or_eq_false_iff] at h
    simp only [trimmed, isError, Bool.or_eq_false_iff]
    exact ⟨h.1, ih h.2⟩
  | node tag production children ih =>
    simp only [isError, Bool.or_eq_false_iff] at h
    have hchildren : anyError (trimmedAll g children) = false := by
      rw [trimmedAll_eq_map, anyError_eq_false]
      intro u hu
      obtain ⟨t, ht, rfl⟩ := List.mem_map.1 hu
      exact ih t ht (anyError_eq_false.1 h.2 t ht)
    have htag : ¬ tag.state < 0 := of_decide_eq_false h.1
    rw [trimmed]
    split
    · next only honly =>
      rw [honly, anyError_eq_false] at hchildren
      split
      · exact isError_withTag_eq_false (hchildren only List.mem_cons_self) htag
      · simpa [isError, anyError_eq_false, htag] using hchildren
    · simp [isError, hchildren, htag]

/-! ## What is on the two stacks -/

/-- The first tree is the second one without its unit reductions, and the second one is marked
itself if anything in it is. -/
structure Trims (g : Cfg) (t t' : Tree α) : Prop where
  trimmed_eq : t = t'.trimmed g
  isError_iff : t'.isError = true ↔ t'.state < 0

theorem state_lt_zero_isError {t : Tree α} (h : t.state < 0) : t.isError = true := by
  cases t <;> simp_all [state, tag, isError]

/-- Then both are marked or neither is. -/
theorem Trims.isError_eq {t t' : Tree α} (h : Trims g t t') : t.isError = t'.isError := by
  rw [h.trimmed_eq]
  cases herror : t'.isError with
  | false => exact isError_trimmed_eq_false herror
  | true =>
    refine state_lt_zero_isError ?_
    rw [state, tag_trimmed]
    exact h.isError_iff.1 herror

theorem trims_of_isSimple {t : Tree α} (h : t.isSimple = true) : Trims g t t where
  trimmed_eq := (trimmed_of_isSimple h).symm
  isError_iff := by
    cases t with
    | blank => simp [isError, state, tag]
    | leaf => simp [isError, state, tag]
    | wrap => cases h
    | node => cases h

theorem state_stamp_lt_zero_iff (q : Nat) (t : Tree α) :
    (ShiftReduce.stamp q t).state < 0 ↔ t.state < 0 := by
  unfold ShiftReduce.stamp
  split
  · rfl
  · next hstate =>
    rw [state_withState]
    exact iff_of_false (Int.not_lt.2 (Int.natCast_nonneg q)) hstate

/-- The two runs record the same states. -/
theorem Trims.stamp {t t' : Tree α} (h : Trims g t t') (q : Nat) :
    Trims g (ShiftReduce.stamp q t) (ShiftReduce.stamp q t') where
  trimmed_eq := by
    have hstate : (t'.trimmed g).state = t'.state := by rw [state, tag_trimmed, state]
    rw [h.trimmed_eq]
    unfold ShiftReduce.stamp
    rw [hstate]
    split
    · rfl
    · rw [withState, withState, trimmed_withTag, tag_trimmed]
  isError_iff := by rw [isError_stamp, state_stamp_lt_zero_iff, h.isError_iff]

theorem trimmedAll_eq_of_forall₂ {ts ts' : List (Tree α)} (h : List.Forall₂ (Trims g) ts ts') :
    trimmedAll g ts' = ts ∧ anyError ts' = anyError ts := by
  induction h with
  | nil => exact ⟨by rw [trimmedAll], rfl⟩
  | cons htree _ ih =>
    exact ⟨by rw [trimmedAll, ih.1, ← htree.trimmed_eq],
      by rw [anyError, anyError, ih.2, htree.isError_eq]⟩

/-- A reduction that nothing is left out of is marked at the root if it is marked at all. -/
theorem isError_reduction_iff_state (symbol production : Nat) (ts : List (Tree α)) :
    (reduction symbol production ts).isError = true ↔
      (reduction symbol production ts).state < 0 := by
  rw [isError_reduction, reduction, state, tag]
  cases anyError ts <;> simp [errorState]

end Tree

/-! ## The two parsers -/

namespace Parser

variable {α ε : Type} {p p' : Parser α}

/-- A reduction of related trees, where a parser that trims relabels the only child of a unit rule.
-/
theorem trims_reduce (hfree : p.grammar.HookFree) (htrim : p.trim = true) {production : Nat}
    {rule : Rule} {ts ts' : List (Tree α)} (hrule : p.grammar.cfg.rules[production]? = some rule)
    (h : List.Forall₂ (Tree.Trims p.grammar.cfg) ts ts') :
    Tree.Trims p.grammar.cfg (p.reduce production rule ts)
      (Tree.reduction rule.left production ts') where
  trimmed_eq := by
    obtain ⟨hall, herror⟩ := Tree.trimmedAll_eq_of_forall₂ h
    have hunit : p.grammar.cfg.isUnitAt production = isUnit p.grammar.cfg rule := by
      rw [Cfg.isUnitAt, hrule, Option.any_some]
    unfold reduce
    rw [replacement?_eq_none hfree, htrim, Bool.true_and, Tree.reduction, Tree.trimmed, hall,
      herror, hunit]
    rcases ts with _ | ⟨only, _ | ⟨second, rest⟩⟩
    · rfl
    · simp only [Tree.relabel, Tree.reduction, Tree.anyError, Bool.or_false]
    · rfl
  isError_iff := Tree.isError_reduction_iff_state _ _ _

/-- Parsers of one grammar without hooks build related trees when the first trims and the second
does not. -/
theorem alike_of_trim (hgrammar : p.grammar = p'.grammar) (hfree : p.grammar.HookFree)
    (htrim : p.trim = true) (htrim' : p'.trim = false) :
    p.Alike p' (Tree.Trims p.grammar.cfg) where
  cfg_eq := by rw [hgrammar]
  table_eq := by rw [p.table_eq, p'.table_eq, hgrammar]
  stamp q _ _ h := h.stamp q
  reduce := by
    intro production rule ts ts' hrule _ hts
    rw [reduce_eq (hgrammar ▸ hfree) htrim']
    exact trims_reduce hfree htrim hrule hts

/-- Over tokens without subtrees, a parser that trims accepts what the parser of the same grammar
without trimming accepts, after the same shifts and reductions.  The tree is the one that is built
without trimming, with its unit reductions taken out. -/
theorem trimming_leaves_out_units {g : Grammar α} (hfree : g.HookFree)
    (hp : Parser.build g true = .ok p) (hp' : Parser.build g false = .ok p')
    {source : List (Pull α ε)} (hsource : ∀ t, Pull.token t ∈ source → t.isSimple = true)
    (root : Tree α) (stats : Stats) (unread : List (Pull α ε)) :
    p.parse source = ⟨.accepted root, stats, unread⟩ ↔
      ∃ full : Tree α, p'.parse source = ⟨.accepted full, stats, unread⟩ ∧
        root = full.trimmed g.cfg := by
  obtain ⟨rfl, htrim⟩ := build_eq_ok hp
  obtain ⟨hgrammar, htrim'⟩ := build_eq_ok hp'
  have halike := alike_of_trim hgrammar.symm hfree htrim htrim'
  have hself : ∀ t, Pull.token t ∈ source → Tree.Trims p.grammar.cfg t t := fun t ht =>
    Tree.trims_of_isSimple (hsource t ht)
  rw [p.parse_eq_iff_ends (by simp)]
  constructor
  · intro h
    obtain ⟨full, hfull, htrims⟩ := halike.ends_accepted hself h
    exact ⟨full, parse_eq_of_ends hfull, htrims.trimmed_eq⟩
  · rintro ⟨full, hfull, rfl⟩
    rw [p'.parse_eq_iff_ends (by simp)] at hfull
    obtain ⟨root, hroot, htrims⟩ := halike.symm.ends_accepted hself hfull
    rw [← htrims.trimmed_eq]
    exact hroot

end Parser

/-- A number under a chain of unit productions. -/
def Grammar.chain : Grammar Nat where
  symbols := Numbering.ofList ["start", "sum", "term", "number", "+"]
  cfg := {
    symbolCount := 5
    rules := [⟨0, [1]⟩, ⟨1, [2]⟩, ⟨1, [1, 4, 2]⟩, ⟨2, [3]⟩]
    inRange := by decide
    startFirst := ⟨[1], _, rfl, by decide⟩ }
  hooks := [none, none, none, none]
  ranks := [0, 0, 0, 0]
  associativities := [.none]
  symbolCount_eq := by decide
  hooks_length := rfl
  ranks_length := rfl
  ranks_lt := by decide

/-- A token comes in marked.  The chain above it leaves its mark and nothing else. -/
theorem Parser.trimming_leaves_out_units_chain :
    ∃ (p p' : Parser Nat) (root full : Tree Nat),
      Parser.build Grammar.chain true = .ok p ∧ Parser.build Grammar.chain false = .ok p' ∧
      p'.parse [Pull.token ((Tree.scalar 3 7).withState (-1))] =
        (⟨.accepted full, ⟨1, 1, 3⟩, []⟩ : Outcome Nat String) ∧
      p.parse [Pull.token ((Tree.scalar 3 7).withState (-1))] =
        (⟨.accepted root, ⟨1, 1, 3⟩, []⟩ : Outcome Nat String) ∧
      root = .node ⟨some 0, -1⟩ 3 [.leaf ⟨some 3, -1⟩ 7] := by
  have hruns : ∃ p p' : Parser Nat,
      Parser.build Grammar.chain true = .ok p ∧ Parser.build Grammar.chain false = .ok p' ∧
      p'.parse [Pull.token ((Tree.scalar 3 7).withState (-1))] =
        (⟨.accepted (.node ⟨some 0, -1⟩ 0 [.node ⟨some 1, -1⟩ 1 [.node ⟨some 2, -1⟩ 3
          [.leaf ⟨some 3, -1⟩ 7]]]), ⟨1, 1, 3⟩, []⟩ : Outcome Nat String) :=
    ⟨_, _, rfl, rfl, rfl⟩
  obtain ⟨p, p', hp, hp', hfull⟩ := hruns
  refine ⟨p, p', _, _, hp, hp', hfull, ?_, rfl⟩
  refine (trimming_leaves_out_units (by unfold Grammar.HookFree; decide) hp hp' ?_ _ _ _).2
    ⟨_, hfull, rfl⟩
  intro t ht
  simp only [List.mem_singleton, Pull.token.injEq] at ht
  rw [ht]
  rfl

end ShiftReduce
