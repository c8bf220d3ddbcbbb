import Mathlib.Data.Finset.Card
import Mathlib.Logic.Relation
import ShiftReduce.Proofs.Parser.Soundness
import ShiftReduce.Proofs.Parser.Weight

/-!
# Grammars whose runs always end

If no rule is empty, a reduction never makes the stack higher, and it leaves the height as it is
only if its rule renames a single symbol.  If no symbol can be renamed to itself, there are only so
many renamings in a row.  Whatever the precedence of productions has made of the table, the
reductions between two shifts are then bounded by the height of the stack and the number of
nonterminals.

* `Cfg.climb`: how many symbols a relation leads to;
* `Cfg.Renames`: rules with a single symbol on the right side;
* `Cfg.room`, `Cfg.descends_room`: a measure of stacks that reductions take down;
* `Parser.ends_and_counts`: every run ends, and the bound on its reductions.
-/

namespace ShiftReduce

namespace Cfg

variable {g : Cfg}

/-! ## Climbing from symbol to symbol -/

theorem mem_nonterminals_of_mem {rule : Rule} (h : rule ∈ g.rules) :
    rule.left ∈ g.nonterminals := by
  rw [nonterminals, List.mem_filter, List.mem_range]
  exact ⟨(g.inRange rule h).1, isNonterminal_left h⟩

section Climb

variable {r : Nat → Nat → Prop} {symbol other : Nat}

open Classical in
/-- The nonterminals that the relation leads to from a symbol, and the symbol itself. -/
noncomputable def above (g : Cfg) (r : Nat → Nat → Prop) (symbol : Nat) : Finset Nat :=
  {other ∈ insert symbol g.nonterminals.toFinset | Relation.ReflTransGen r symbol other}

/-- How many they are. -/
noncomputable def climb (g : Cfg) (r : Nat → Nat → Prop) (symbol : Nat) : Nat :=
  (g.above r symbol).card

theorem mem_above :
    other ∈ g.above r symbol ↔
      (other = symbol ∨ other ∈ g.nonterminals) ∧ Relation.ReflTransGen r symbol other := by
  simp [above]

theorem climb_le (g : Cfg) (r : Nat → Nat → Prop) (symbol : Nat) :
    g.climb r symbol ≤ g.nonterminals.length + 1 := by
  have hsubset : g.above r symbol ⊆ insert symbol g.nonterminals.toFinset := fun other hother => by
    simpa using (mem_above.1 hother).1
  calc g.climb r symbol
      ≤ (insert symbol g.nonterminals.toFinset).card := Finset.card_le_card hsubset
    _ ≤ g.nonterminals.toFinset.card + 1 := Finset.card_insert_le _ _
    _ ≤ g.nonterminals.length + 1 := Nat.succ_le_succ (List.toFinset_card_le _)

theorem climb_pos (g : Cfg) (r : Nat → Nat → Prop) (symbol : Nat) : 0 < g.climb r symbol :=
  Finset.card_pos.2 ⟨symbol, mem_above.2 ⟨Or.inl rfl, .refl⟩⟩

/-- A symbol that the relation does not lead back to is left behind for good. -/
theorem climb_lt_climb (h : r symbol other) (hother : other ∈ g.nonterminals)
    (hno : ¬ Relation.TransGen r symbol symbol) : g.climb r other < g.climb r symbol := by
  refine Finset.card_lt_card ((Finset.ssubset_iff_of_subset ?_).2 ⟨symbol, ?_, ?_⟩)
  · intro last hlast
    obtain ⟨hmem, hpath⟩ := mem_above.1 hlast
    refine mem_above.2 ⟨Or.inr ?_, hpath.head h⟩
    rcases hmem with rfl | hmem
    · exact hother
    · exact hmem
  · exact mem_above.2 ⟨Or.inl rfl, .refl⟩
  · exact fun hback => hno (.head' h (mem_above.1 hback).2)

end Climb

/-! ## Room for reductions -/

/-- A rule with just one symbol on its right side renames it to the left side. -/
def Renames (g : Cfg) (only left : Nat) : Prop := ⟨left, [only]⟩ ∈ g.rules

/-- How many reductions a stack of symbols, the last one first, has room for.  The last symbol can
be renamed for a while; below it there is room for as many renamings of each symbol that is to
become the last one, and for the reduction that makes it so. -/
noncomputable def room (g : Cfg) : List Nat → Nat
  | [] => 0
  | last :: rest => g.climb g.Renames last + rest.length * (g.nonterminals.length + 1)

theorem room_le (g : Cfg) (symbols : List Nat) :
    g.room symbols ≤ symbols.length * (g.nonterminals.length + 1) := by
  cases symbols with
  | nil => exact Nat.zero_le _
  | cons last rest =>
    rw [room, List.length_cons, Nat.succ_mul, Nat.add_comm]
    exact Nat.add_le_add_left (g.climb_le g.Renames last) _

/-- A reduction by a rule that is not empty leaves less room. -/
theorem descends_room (hfull : ∀ rule ∈ g.rules, rule.right ≠ [])
    (hacyclic : ∀ symbol, ¬ Relation.TransGen g.Renames symbol symbol) : g.Descends g.room := by
  rintro ⟨left, right⟩ hrule below
  show g.room (left :: below) < g.room (right.reverse ++ below)
  obtain ⟨front, last, rfl⟩ := (List.eq_nil_or_concat right).resolve_left (hfull _ hrule)
  rw [List.concat_eq_append, List.reverse_append, List.reverse_singleton, List.singleton_append,
    List.cons_append, room, room, List.length_append, List.length_reverse]
  cases front with
  | nil =>
    have hlt : g.climb g.Renames left < g.climb g.Renames last :=
      climb_lt_climb hrule (mem_nonterminals_of_mem hrule) (hacyclic last)
    simpa using hlt
  | cons first front =>
    -- The stack gets lower by one at least, which makes up for the renamings of the left side.
    have hleft := g.climb_le g.Renames left
    have hlast := g.climb_pos g.Renames last
    have hheight : (first :: front).length + below.length = front.length + below.length + 1 := by
      rw [List.length_cons]
      omega
    rw [hheight, Nat.succ_mul, Nat.add_mul]
    omega

end Cfg

/-! ## Runs -/

namespace Parser

variable {α ε : Type} {p : Parser α}

/-- In a grammar without empty rules and without ways to rename a symbol to itself, every run ends,
whatever its source, the precedence of productions and the hooks.  From any of its configurations,
as long as no further shift is counted, the reductions are bounded by the height of the stack there
and the number of nonterminals. -/
theorem ends_and_counts {g : Grammar α} (hfull : ∀ rule ∈ g.cfg.rules, rule.right ≠ [])
    (hacyclic : ∀ symbol, ¬ Relation.TransGen g.cfg.Renames symbol symbol) {trim : Bool}
    (hp : Parser.build g trim = .ok p) (source : List (Pull α ε)) :
    (∃ o : Outcome α ε, p.Ends (start source) o ∧ p.parse source = o ∧ o.verdict.Final) ∧
      ∀ c : Config α ε, p.Reachable source c → ∀ stats, p.Counts (.next c) stats →
        stats.shifts = c.stats.shifts → stats.reductions ≤
          c.stats.reductions + c.stack.length * (g.cfg.nonterminals.length + 1) := by
  obtain ⟨rfl, -⟩ := build_eq_ok hp
  have hd := Cfg.descends_room hfull hacyclic
  constructor
  · obtain ⟨o, ho⟩ := exists_ends hd source
    exact ⟨o, ho, parse_eq_of_ends ho, ho.final⟩
  · intro c hc stats hcounts hshifts
    obtain ⟨symbols, hover⟩ := over_of_reachable hc
    have hheight : c.stack.length = symbols.length := by simpa using hover.length_eq
    rw [hheight]
    exact ((hcounts.reductions_le hd rfl hover).2 hshifts).trans
      (Nat.add_le_add_left (p.grammar.cfg.room_le symbols) _)

end Parser

/-! ## Differences -/

/-- The nonterminal `1` stands for terminals `3` with a terminal `2` between any two of them.  How
they are grouped is left to precedence. -/
def Grammar.differences : Grammar Nat where
  symbols := ⟨["start", "difference", "minus", "number"], by decide⟩
  cfg := {
    symbolCount := 4
    rules := [⟨0, [1]⟩, ⟨1, [1, 2, 1]⟩, ⟨1, [3]⟩]
    inRange := by decide
    startFirst := ⟨[1], [⟨1, [1, 2, 1]⟩, ⟨1, [3]⟩], rfl, by decide⟩ }
  hooks := [none, none, none]
  ranks := [0, 0, 0]
  associativities := [.left]
  symbolCount_eq := rfl
  hooks_length := Grammar.anyNumber.hooks_length
  ranks_length := Grammar.anyNumber.ranks_length
  ranks_lt := Grammar.anyNumber.ranks_lt

theorem Grammar.not_renames_self_differences (symbol : Nat) :
    ¬ Relation.TransGen differences.cfg.Renames symbol symbol := by
  have hlt : ∀ only left, differences.cfg.Renames only left → left < only := by
    intro only left h
    have hrule : left = 0 ∧ only = 1 ∨ left = 1 ∧ only = 3 := by
      simpa [Cfg.Renames, differences] using h
    omega
  intro hself
  have htrans : Relation.TransGen (· > ·) symbol symbol := Relation.TransGen.mono hlt _ _ hself
  rw [Relation.transGen_eq_self] at htrans
  exact Nat.lt_irrefl symbol htrans

/-- Actions compete in the table of the differences, and it takes precedence to make a parser of
them.  Its runs end all the same. -/
theorem Parser.ends_and_counts_differences :
    ∃ (p : Parser Nat) (source : List (Pull Nat String)),
      Parser.build Grammar.differences true = .ok p ∧ ¬ Grammar.differences.Decided ∧
      source = [Tree.scalar 3 8, Tree.scalar 2 0, Tree.scalar 3 2, Tree.scalar 2 0,
        Tree.scalar 3 1].map .token ∧
      (∃ o : Outcome Nat String, p.Ends (start source) o ∧ p.parse source = o ∧
        o.verdict.Final) ∧
      ∀ c : Config Nat String, p.Reachable source c → ∀ stats, p.Counts (.next c) stats →
        stats.shifts = c.stats.shifts → stats.reductions ≤
          c.stats.reductions + c.stack.length * (2 + 1) := by
  have hbuild : ∃ p : Parser Nat, Parser.build Grammar.differences true = .ok p := ⟨_, rfl⟩
  obtain ⟨p, hp⟩ := hbuild
  exact ⟨p, _, hp, by decide +kernel, rfl,
    ends_and_counts (by decide) Grammar.not_renames_self_differences hp _⟩

end ShiftReduce
