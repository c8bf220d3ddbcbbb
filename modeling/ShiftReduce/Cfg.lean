import ShiftReduce.GrammarError

/-!
# Context-free grammars

The bare grammar: how many symbols there are and which rules expand them.  Symbol zero is the
start; the first rule is its only rule.  A symbol with a rule is a nonterminal, any other symbol
is a terminal.

* `Cfg`, which holds only well-formed rules, and `Cfg.ofRules`, which checks them;
* `Cfg.rulesOf`, `Cfg.terminals`, `Cfg.nonterminals`: rules and symbols in ascending order.
-/

namespace ShiftReduce

/-- A rule expands the symbol on its left into those on its right. -/
structure Rule where
  left : Nat
  right : List Nat
deriving DecidableEq, Repr

/-- A context-free grammar over the symbols below `symbolCount`. -/
structure Cfg where
  symbolCount : Nat
  rules : List Rule
  /-- Rules speak of symbols only. -/
  inRange : ∀ r ∈ rules, r.left < symbolCount ∧ ∀ s ∈ r.right, s < symbolCount
  /-- The first rule is the only rule of the start symbol. -/
  startFirst : ∃ right rest, rules = ⟨0, right⟩ :: rest ∧ ∀ r ∈ rest, r.left ≠ 0

namespace Cfg

@[ext]
theorem ext {g h : Cfg} (count : g.symbolCount = h.symbolCount) (rules : g.rules = h.rules) :
    g = h := by
  cases g; cases h; cases count; cases rules; rfl

/-! ## Checking rules -/

/-- What is wrong with the rule at index `i`, if anything. -/
def ruleFault (count : Nat) (i : Nat) (r : Rule) : Option GrammarError :=
  match (r.left :: r.right).find? (fun s => decide (count ≤ s)) with
  | some s => some (.symbolOutOfRange i s count)
  | none => if 0 < i ∧ r.left = 0 then some (.badStart i) else none

/-- The first fault among the rules from index `i` on. -/
def ruleFaults (count : Nat) : Nat → List Rule → Option GrammarError
  | _, [] => none
  | i, r :: rs =>
    match ruleFault count i r with
    | some error => some error
    | none => ruleFaults count (i + 1) rs

/-- The reason why the rules make no grammar: the first fault of a rule comes before a wrong
left side of the first rule. -/
def fault? (count : Nat) : List Rule → Option GrammarError
  | [] => some .noProductions
  | first :: rest =>
    match ruleFaults count 0 (first :: rest) with
    | some error => some error
    | none => if first.left = 0 then none else some (.badStart 0)

theorem ruleFault_eq_none_iff {count i : Nat} {r : Rule} :
    ruleFault count i r = none ↔
      (r.left < count ∧ ∀ s ∈ r.right, s < count) ∧ (0 < i → r.left ≠ 0) := by
  unfold ruleFault
  split
  · next s hs =>
    have hmem := List.mem_of_find?_eq_some hs
    have hle : count ≤ s := by simpa using List.find?_some hs
    simp only [reduceCtorEq, false_iff, not_and]
    intro h
    rcases List.mem_cons.1 hmem with rfl | hmem
    · exact absurd h.1 (Nat.not_lt.2 hle)
    · exact absurd (h.2 s hmem) (Nat.not_lt.2 hle)
  · next hs =>
    simp only [List.find?_eq_none, List.mem_cons, decide_eq_true_eq, Nat.not_le,
      forall_eq_or_imp] at hs
    constructor
    · intro h
      refine ⟨hs, fun hi hl => ?_⟩
      simp [hi, hl] at h
    · rintro ⟨-, h⟩
      simpa using h

theorem ruleFaults_eq_none_iff {count i : Nat} {rs : List Rule} :
    ruleFaults count i rs = none ↔
      (∀ r ∈ rs, r.left < count ∧ ∀ s ∈ r.right, s < count) ∧
        ∀ j r, rs[j]? = some r → 0 < i + j → r.left ≠ 0 := by
  induction rs generalizing i with
  | nil => simp [ruleFaults]
  | cons r rs ih =>
    rw [ruleFaults]
    split
    · next error h =>
      simp only [reduceCtorEq, false_iff, not_and]
      intro hrange hstart
      have : ruleFault count i r = none :=
        ruleFault_eq_none_iff.2 ⟨hrange r (by simp), hstart 0 r (by simp)⟩
      rw [h] at this
      cases this
    · next h =>
      rw [ruleFault_eq_none_iff] at h
      rw [ih]
      constructor
      · rintro ⟨hrange, hstart⟩
        refine ⟨by simpa using ⟨h.1, hrange⟩, fun j q hj hpos => ?_⟩
        cases j with
        | zero => simp only [List.getElem?_cons_zero, Option.some.injEq] at hj; exact hj ▸ h.2 hpos
        | succ j => exact hstart j q (by simpa using hj) (by omega)
      · rintro ⟨hrange, hstart⟩
        exact ⟨fun q hq => hrange q (by simp [hq]),
          fun j q hj _ => hstart (j + 1) q (by simpa using hj) (by omega)⟩

theorem wellFormed_of_fault?_eq_none {count : Nat} {rules : List Rule}
    (h : fault? count rules = none) :
    (∀ r ∈ rules, r.left < count ∧ ∀ s ∈ r.right, s < count) ∧
      ∃ right rest, rules = ⟨0, right⟩ :: rest ∧ ∀ r ∈ rest, r.left ≠ 0 := by
  cases rules with
  | nil => simp [fault?] at h
  | cons first rest =>
    rw [fault?] at h
    split at h
    · cases h
    · next hf =>
      obtain ⟨hrange, hstart⟩ := ruleFaults_eq_none_iff.1 hf
      split at h
      · next hleft =>
        refine ⟨hrange, first.right, rest, by rw [← hleft], fun r hr => ?_⟩
        obtain ⟨j, hj, hget⟩ := List.getElem_of_mem hr
        exact hstart (j + 1) r (by simp [hget, hj]) (by omega)
      · cases h

/-- Makes a grammar of rules, or gives the reason why they make none. -/
def ofRules (count : Nat) (rules : List Rule) : Except GrammarError Cfg :=
  match h : fault? count rules with
  | some error => .error error
  | none =>
    have wf := wellFormed_of_fault?_eq_none h
    .ok ⟨count, rules, wf.1, wf.2⟩

theorem ofRules_eq_ok {count : Nat} {rules : List Rule} {g : Cfg}
    (h : ofRules count rules = .ok g) : g.symbolCount = count ∧ g.rules = rules := by
  unfold ofRules at h
  split at h
  · cases h
  · cases h
    exact ⟨rfl, rfl⟩

/-! ## Rules and symbols -/

/-- The indices of the rules of `symbol`, ascending. -/
def rulesOf (g : Cfg) (symbol : Nat) : List Nat :=
  (g.rules.zipIdx.filter fun r => decide (r.1.left = symbol)).map Prod.snd

/-- Whether some rule expands `symbol`. -/
def isNonterminal (g : Cfg) (symbol : Nat) : Bool := g.rules.any fun r => decide (r.left = symbol)

/-- Whether `symbol` is a symbol that no rule expands. -/
def isTerminal (g : Cfg) (symbol : Nat) : Bool :=
  decide (symbol < g.symbolCount) && !g.isNonterminal symbol

/-- All terminals, ascending. -/
def terminals (g : Cfg) : List Nat := (List.range g.symbolCount).filter g.isTerminal

/-- All nonterminals, ascending. -/
def nonterminals (g : Cfg) : List Nat := (List.range g.symbolCount).filter g.isNonterminal

end Cfg

end ShiftReduce
