import ShiftReduce.GrammarText.Draft

/-!
# What declarations make

A grammar holds what it was declared with: a rule, a hook and a rank for each production, in the
order of declaration, and an associativity for each group.  Declarations make a grammar when no name
is repeated, the productions speak of named symbols only, and the first production alone expands the
start symbol.

* `Grammar.Declared`, `Grammar.declared_of_build`: what is in a grammar;
* `Cfg.fault?_of_inRange`, `Grammar.build_eq_error_iff_fault?`: why there is none;
* `Grammar.exists_build_eq_ok`: when there is one;
* `Grammar.Declared.of_ranked`, `Grammar.Declared.of_group`: everything about one production;
* `GrammarText.Draft.declarations`, `GrammarText.Draft.rules_eq_of_build`: what a grammar text
  declares, and the rules that it makes.
-/

namespace ShiftReduce

/-! ## Names and rules -/

/-- New names that are all different can arrive. -/
theorem Numbering.exists_extend_eq_ok {α : Type} [DecidableEq α] (n : Numbering α) {as : List α}
    (hnodup : as.Nodup) (hnew : ∀ a ∈ as, a ∉ n.entries) :
    ∃ m, n.extend as = .ok m ∧ m.entries = n.entries ++ as := by
  induction as generalizing n with
  | nil => exact ⟨n, rfl, (List.append_nil _).symm⟩
  | cons a as ih =>
    obtain ⟨ha, has⟩ := List.nodup_cons.1 hnodup
    have hfresh : a ∉ n.entries := hnew a List.mem_cons_self
    have hrest : ∀ b ∈ as, b ∉ (n.insert a).entries := by
      intro b hb hmem
      rcases mem_entries_insert.1 hmem with hmem | rfl
      · exact hnew b (List.mem_cons_of_mem _ hb) hmem
      · exact ha hb
    obtain ⟨m, hm, hentries⟩ := ih (n.insert a) has hrest
    refine ⟨m, ?_, ?_⟩
    · rw [extend, if_neg hfresh]
      exact hm
    · rw [hentries, entries_insert_of_not_mem hfresh]
      simp

/-- Values that have arrived without complaint follow those that were there. -/
theorem Numbering.entries_of_extend_eq_ok {α : Type} [DecidableEq α] {n m : Numbering α}
    {as : List α} (h : n.extend as = .ok m) : m.entries = n.entries ++ as := by
  induction as generalizing n with
  | nil =>
    cases h
    exact (List.append_nil _).symm
  | cons a as ih =>
    rw [extend] at h
    split at h
    · cases h
    · next hfresh =>
      rw [ih h, entries_insert_of_not_mem hfresh, List.append_assoc, List.singleton_append]

namespace Cfg

variable {count i : Nat} {right : List Nat} {rest : List Rule}

/-- A rule over the symbols is at fault only if it expands the start and is not the first one. -/
theorem ruleFault_of_inRange {r : Rule} (h : r.left < count ∧ ∀ s ∈ r.right, s < count) :
    ruleFault count i r = if 0 < i ∧ r.left = 0 then some (.badStart i) else none := by
  have hfind : (r.left :: r.right).find? (fun s => decide (count ≤ s)) = none := by
    simpa [List.find?_eq_none] using h
  rw [ruleFault, hfind]

/-- Of later rules over the symbols, the first one that expands the start is at fault. -/
theorem ruleFaults_of_inRange {rs : List Rule} (hi : 0 < i)
    (h : ∀ r ∈ rs, r.left < count ∧ ∀ s ∈ r.right, s < count) :
    ruleFaults count i rs = if 0 ∈ rs.map Rule.left then
      some (.badStart (i + (rs.map Rule.left).idxOf 0)) else none := by
  induction rs generalizing i with
  | nil => rfl
  | cons r rs ih =>
    rw [ruleFaults, ruleFault_of_inRange (h r List.mem_cons_self), List.map_cons]
    by_cases hr : r.left = 0
    · rw [if_pos ⟨hi, hr⟩, hr, if_pos List.mem_cons_self, List.idxOf_cons_self]
      rfl
    · have hidx : (r.left :: rs.map Rule.left).idxOf 0 = (rs.map Rule.left).idxOf 0 + 1 := by
        rw [List.idxOf_cons, beq_eq_false_iff_ne.2 hr, cond_false]
      rw [if_neg fun hboth => hr hboth.2, hidx,
        ih (Nat.succ_pos i) fun r' hr' => h r' (List.mem_cons_of_mem r hr')]
      simp [Ne.symm hr, Nat.add_assoc, Nat.add_comm 1]

/-- Of rules over the symbols that begin with a rule of the start, the first other one that expands
it is at fault. -/
theorem fault?_of_inRange
    (h : ∀ r ∈ (⟨0, right⟩ :: rest : List Rule), r.left < count ∧ ∀ s ∈ r.right, s < count) :
    fault? count (⟨0, right⟩ :: rest) = if 0 ∈ rest.map Rule.left then
      some (.badStart (1 + (rest.map Rule.left).idxOf 0)) else none := by
  obtain ⟨hfirst, hrest⟩ := List.forall_mem_cons.1 h
  rw [fault?, ruleFaults, ruleFault_of_inRange hfirst, if_neg (by simp),
    ruleFaults_of_inRange Nat.one_pos hrest]
  by_cases hstart : 0 ∈ rest.map Rule.left
  · rw [if_pos hstart]
  · rw [if_neg hstart]
    rfl

end Cfg

namespace Grammar

variable {α : Type} {g : Grammar α} {names : List String} {groups : List (Group α)}

/-! ## What is in a grammar -/

/-- The grammar holds what the groups declare. -/
structure Declared (g : Grammar α) (groups : List (Group α)) : Prop where
  rules_eq : g.cfg.rules = rulesIn groups
  hooks_eq : g.hooks = (ranked groups).map fun p => p.1.hook
  ranks_eq : g.ranks = (ranked groups).map Prod.snd
  associativities_eq : g.associativities = groups.map Group.associativity

theorem declared_of_build (h : build names groups = .ok g) : g.Declared groups := by
  unfold build at h
  split at h
  · cases h
  · next symbols hsymbols =>
    split at h
    · cases h
    · next cfg hcfg =>
      cases h
      exact ⟨(Cfg.ofRules_eq_ok hcfg).2, rfl, rfl, rfl⟩

theorem symbols_of_build {names : List String} {groups : List (Group α)}
    (h : build names groups = .ok g) : Numbering.empty.extend names = .ok g.symbols := by
  unfold build at h
  split at h
  · cases h
  · next symbols hsymbols =>
    split at h
    · cases h
    · cases h
      exact hsymbols

/-- The symbols of a grammar have the given names. -/
theorem entries_of_build (h : build names groups = .ok g) : g.symbols.entries = names :=
  Numbering.entries_of_extend_eq_ok (symbols_of_build h)

/-- Under names that are all different, a grammar is refused for the fault of its rules. -/
theorem build_eq_error_iff_fault? (hnames : names.Nodup) {error : GrammarError} :
    build names groups = .error error ↔
      Cfg.fault? names.length (rulesIn groups) = some error := by
  obtain ⟨symbols, hsymbols, hentries⟩ :=
    Numbering.empty.exists_extend_eq_ok hnames (fun _ _ h => nomatch h)
  have hsize : symbols.size = names.length := by
    rw [Numbering.size, hentries]
    rfl
  have hrules : Cfg.ofRules symbols.size (rulesIn groups) = .error error ↔
      Cfg.fault? names.length (rulesIn groups) = some error := by
    unfold Cfg.ofRules
    rw [hsize]
    split
    · next hfault => simp [hfault]
    · next hfault => simp [hfault]
  rw [← hrules]
  unfold build
  rw [hsymbols]
  dsimp only
  split
  · next hcfg => simp [hcfg]
  · next hcfg => simp [hcfg]

/-- Declarations without fault make a grammar. -/
theorem exists_build_eq_ok (hnames : names.Nodup)
    (hrange : ∀ r ∈ rulesIn groups, r.left < names.length ∧ ∀ s ∈ r.right, s < names.length)
    {right : List Nat} {rest : List Rule} (hrules : rulesIn groups = ⟨0, right⟩ :: rest)
    (hleft : ∀ r ∈ rest, r.left ≠ 0) : ∃ g, build names groups = .ok g := by
  cases hbuild : build names groups with
  | ok g => exact ⟨g, rfl⟩
  | error error =>
    rw [hrules] at hrange
    rw [build_eq_error_iff_fault? hnames, hrules, Cfg.fault?_of_inRange hrange, if_neg] at hbuild
    · cases hbuild
    · simpa [eq_comm] using hleft

/-- A declared production stands in the group that it is ranked by. -/
theorem mem_ranked {p : Production α} {k : Nat} :
    (p, k) ∈ ranked groups ↔ ∃ group, groups[k]? = some group ∧ p ∈ group.productions := by
  simp only [ranked, List.mem_flatMap, List.mem_map, Prod.mk.injEq, Prod.exists]
  constructor
  · rintro ⟨group, i, hgroup, q, hq, rfl, rfl⟩
    exact ⟨group, List.mk_mem_zipIdx_iff_getElem?.1 hgroup, hq⟩
  · rintro ⟨group, hgroup, hp⟩
    exact ⟨group, k, List.mk_mem_zipIdx_iff_getElem?.2 hgroup, p, hp, rfl, rfl⟩

theorem map_fst_ranked : (ranked groups).map Prod.fst = groups.flatMap Group.productions := by
  calc (ranked groups).map Prod.fst
    _ = groups.zipIdx.flatMap fun group => group.1.productions := by
      simp [ranked, List.map_flatMap, Function.comp_def]
    _ = (groups.zipIdx.map Prod.fst).flatMap Group.productions := by rw [List.flatMap_map]
    _ = groups.flatMap Group.productions := by rw [List.zipIdx_map_fst]

theorem rulesIn_eq (groups : List (Group α)) :
    rulesIn groups = (groups.flatMap Group.productions).map fun p => ⟨p.left, p.right⟩ := by
  rw [← map_fst_ranked, List.map_map]
  rfl

/-- What a grammar says of the production with a given index. -/
theorem Declared.of_ranked (h : g.Declared groups) {i k : Nat} {p : Production α}
    (hp : (ranked groups)[i]? = some (p, k)) :
    g.cfg.rules[i]? = some ⟨p.left, p.right⟩ ∧ g.rank i = k ∧
      ∃ group, groups[k]? = some group ∧ p ∈ group.productions ∧
        g.associativity k = group.associativity := by
  obtain ⟨group, hgroup, hmem⟩ := mem_ranked.1 (List.mem_of_getElem? hp)
  refine ⟨?_, ?_, group, hgroup, hmem, ?_⟩
  · rw [h.rules_eq, rulesIn, List.getElem?_map, hp]
    rfl
  · rw [rank, h.ranks_eq, List.getD_eq_getElem?_getD, List.getElem?_map, hp]
    rfl
  · rw [associativity, h.associativities_eq, List.getD_eq_getElem?_getD, List.getElem?_map, hgroup]
    rfl

/-- The productions before a group come before its own ones. -/
theorem ranked_append_cons (before after : List (Group α)) (group : Group α) :
    ∃ later, ranked (before ++ group :: after) =
      ranked before ++ (group.productions.map (·, before.length) ++ later) := by
  refine ⟨(after.zipIdx (before.length + 1)).flatMap fun group =>
    group.1.productions.map (·, group.2), ?_⟩
  simp [ranked, List.zipIdx_append, List.zipIdx_cons]

/-- What a grammar says of a production of a group. -/
theorem Declared.of_group {before after : List (Group α)} {group : Group α}
    (h : g.Declared (before ++ group :: after)) {j : Nat} {p : Production α}
    (hp : group.productions[j]? = some p) :
    let i := (before.flatMap Group.productions).length + j
    g.cfg.rules[i]? = some ⟨p.left, p.right⟩ ∧ g.rank i = before.length ∧ g.hook? i = p.hook := by
  have hlength : (ranked before).length = (before.flatMap Group.productions).length := by
    rw [← map_fst_ranked, List.length_map]
  obtain ⟨later, hlater⟩ := ranked_append_cons before after group
  have hlt : j < group.productions.length := (List.getElem?_eq_some_iff.1 hp).1
  have hranked : (ranked (before ++ group :: after))[(before.flatMap Group.productions).length + j]?
      = some (p, before.length) := by
    rw [hlater, ← hlength, List.getElem?_append_right (Nat.le_add_right _ _),
      Nat.add_sub_cancel_left, List.getElem?_append_left (by simpa using hlt), List.getElem?_map,
      hp]
    rfl
  obtain ⟨hrule, hrank, -⟩ := h.of_ranked hranked
  refine ⟨hrule, hrank, ?_⟩
  rw [hook?, h.hooks_eq, List.getElem?_map, hranked]
  rfl

end Grammar

namespace GrammarText

variable {α : Type}

/-- A production with its hook. -/
def DraftProduction.declared (hookFor : String → Option (Hook α)) (p : DraftProduction) :
    Production α :=
  ⟨p.left, p.right, hookFor p.label⟩

/-- A group with hooks for its productions. -/
def DraftGroup.declared (hookFor : String → Option (Hook α)) (group : DraftGroup) : Group α :=
  ⟨group.associativity, group.productions.map (DraftProduction.declared hookFor)⟩

namespace Draft

/-- The groups of a draft, with hooks for their productions. -/
def declarations (draft : Draft) (hookFor : String → Option (Hook α)) : List (Group α) :=
  draft.groups.map (DraftGroup.declared hookFor)

theorem build_eq (draft : Draft) (hookFor : String → Option (Hook α)) :
    draft.build hookFor = Grammar.build draft.symbols (draft.declarations hookFor) := rfl

theorem rulesIn_declarations (draft : Draft) (hookFor : String → Option (Hook α)) :
    Grammar.rulesIn (draft.declarations hookFor) =
      draft.productions.map fun p => ⟨p.left, p.right⟩ := by
  rw [Grammar.rulesIn_eq]
  simp [declarations, productions, DraftGroup.declared, DraftProduction.declared, List.map_flatMap,
    List.flatMap_map, Function.comp_def]

/-- The rules of a grammar made of a text are the productions of the text. -/
theorem rules_eq_of_build {draft : Draft} {hookFor : String → Option (Hook α)} {g : Grammar α}
    (h : draft.build hookFor = .ok g) :
    g.cfg.rules = draft.productions.map fun p => ⟨p.left, p.right⟩ := by
  rw [build_eq] at h
  rw [(Grammar.declared_of_build h).rules_eq, rulesIn_declarations]

end Draft

end GrammarText

end ShiftReduce
