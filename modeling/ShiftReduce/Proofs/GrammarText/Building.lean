import ShiftReduce.Proofs.Declarations
import ShiftReduce.Proofs.GrammarText.Format

/-!
# Grammars made of grammar texts

What a grammar text declares can go wrong as a grammar in one way only: by a production line that
has the start on its left.  No name is declared twice, since nonterminals and terminals are told
apart by their first letter; no number is out of range, since all numbers are places of names; and
the start production is always there.

* `Draft.Built`: a grammar holds what a draft says;
* `Declares.fault?_eq`: the one thing that can be wrong with a draft;
* `Draft.build_fails_only_at_start`: when a text that was read makes a grammar, and which one.
-/

namespace ShiftReduce.GrammarText

variable {α : Type} {draft : Draft} {hookFor : String → Option (Hook α)} {g : Grammar α}

/-! ## What is in the grammar -/

namespace Draft

/-- The grammar holds what the draft says: the sides of all productions, the associativities of all
groups, and for the production at index `j` of a group its rank, which is the index of the group,
and the hook for its label. -/
structure Built (draft : Draft) (hookFor : String → Option (Hook α)) (g : Grammar α) : Prop where
  rules_eq : g.cfg.rules = draft.productions.map fun p => ⟨p.left, p.right⟩
  associativities_eq : g.associativities = draft.groups.map DraftGroup.associativity
  of_group : ∀ before group after j p, draft.groups = before ++ group :: after →
    group.productions[j]? = some p →
    let i := (before.flatMap DraftGroup.productions).length + j
    draft.productions[i]? = some p ∧ g.rank i = before.length ∧ g.hook? i = hookFor p.label

theorem built_of_build (h : draft.build hookFor = .ok g) : Built draft hookFor g := by
  have hdeclared := Grammar.declared_of_build ((build_eq draft hookFor).symm.trans h)
  refine ⟨rules_eq_of_build h, ?_, ?_⟩
  · rw [hdeclared.associativities_eq, declarations, List.map_map]
    rfl
  · intro before group after j p hgroups hp
    have hlt : j < group.productions.length := (List.getElem?_eq_some_iff.1 hp).1
    have hproduction : draft.productions[(before.flatMap DraftGroup.productions).length + j]? =
        some p := by
      rw [productions, hgroups, List.flatMap_append, List.flatMap_cons,
        List.getElem?_append_right (Nat.le_add_right _ _), Nat.add_sub_cancel_left,
        List.getElem?_append_left hlt, hp]
    have hdeclaredp : (group.declared hookFor).productions[j]? = some (p.declared hookFor) := by
      rw [DraftGroup.declared, List.getElem?_map, hp]
      rfl
    have hlength : ((before.map (DraftGroup.declared hookFor)).flatMap Group.productions).length =
        (before.flatMap DraftGroup.productions).length := by
      simp [List.length_flatMap, DraftGroup.declared, Function.comp_def]
    rw [declarations, hgroups, List.map_append, List.map_cons] at hdeclared
    have hof := hdeclared.of_group hdeclaredp
    rw [hlength, List.length_map] at hof
    exact ⟨hproduction, hof.2⟩

end Draft

/-! ## What can be wrong -/

namespace Declares

variable {ts : List Token} {layout : Layout} {first : String}

theorem startName_mem (h : Declares ts draft layout first) : startName ∈ draft.symbols := by
  rw [h.symbols_eq]
  exact List.mem_append_left _ List.mem_cons_self

theorem first_mem (h : Declares ts draft layout first) : first ∈ draft.symbols := by
  have hother : first ∈ otherNonterminals ts := List.mem_of_head? h.first_eq
  rw [h.symbols_eq]
  exact List.mem_append_left _ (List.mem_cons_of_mem _ (List.mem_eraseDups.2 hother))

/-- The place of a name is zero only for the start. -/
theorem idxOf_eq_zero_iff (h : Declares ts draft layout first) {name : String} :
    draft.symbols.idxOf name = 0 ↔ name = startName := by
  rw [h.symbols_eq, List.cons_append, List.idxOf_cons]
  by_cases hname : startName = name
  · simp [hname]
  · simp [beq_eq_false_iff_ne.2 hname, Ne.symm hname]

/-- The first place of a value after a map that takes only one value to it. -/
theorem idxOf_map {β γ : Type} [DecidableEq β] [DecidableEq γ] {f : β → γ} {b : β} {c : γ}
    (hf : ∀ x, f x = c ↔ x = b) (l : List β) : (l.map f).idxOf c = l.idxOf b := by
  induction l with
  | nil => rfl
  | cons x l ih =>
    rw [List.map_cons, List.idxOf_cons, List.idxOf_cons, ih]
    by_cases hx : x = b
    · simp [hx, (hf b).2 rfl]
    · simp [beq_eq_false_iff_ne.2 hx, beq_eq_false_iff_ne.2 (mt (hf x).1 hx)]

/-- The rules of a draft are over its symbols and begin with a rule of the start; the others expand
what the production lines have on their left. -/
theorem exists_rules (h : Declares ts draft layout first) (hookFor : String → Option (Hook α)) :
    ∃ right rest, Grammar.rulesIn (draft.declarations hookFor) = ⟨0, right⟩ :: rest ∧
      rest.map Rule.left = layout.productionLines.map (fun p => draft.symbols.idxOf p.left) ∧
      ∀ r ∈ (⟨0, right⟩ :: rest : List Rule),
        r.left < draft.symbols.length ∧ ∀ s ∈ r.right, s < draft.symbols.length := by
  have hplace : ∀ {name}, name ∈ draft.symbols → draft.symbols.idxOf name < draft.symbols.length :=
    List.idxOf_lt_length_of_mem
  rw [Draft.rulesIn_declarations, h.productions_eq, List.map_cons, h.idxOf_eq_zero_iff.2 rfl]
  refine ⟨_, _, rfl, ?_, List.forall_mem_cons.2 ⟨?_, ?_⟩⟩
  · calc List.map Rule.left _
      _ = (layout.productionLines.zipIdx 1).map fun p => draft.symbols.idxOf p.1.left := by
        simp only [List.map_map, Function.comp_def]
      _ = ((layout.productionLines.zipIdx 1).map Prod.fst).map
          fun p => draft.symbols.idxOf p.left := by
        rw [List.map_map]
        rfl
      _ = _ := by rw [List.zipIdx_map_fst]
  · have hzero := hplace h.startName_mem
    exact ⟨by simpa using Nat.zero_lt_of_lt hzero, by simpa using hplace h.first_mem⟩
  · intro r hr
    simp only [List.mem_map] at hr
    obtain ⟨_, ⟨p, hp, rfl⟩, rfl⟩ := hr
    obtain ⟨hleft, hright⟩ := h.mem_symbols p.1 (List.fst_mem_of_mem_zipIdx hp)
    refine ⟨hplace hleft, fun s hs => ?_⟩
    obtain ⟨symbol, hsymbol, rfl⟩ := List.mem_map.1 hs
    exact hplace (hright symbol hsymbol)

/-- A draft is at fault exactly when a production line has the start on its left; the first such
line is named. -/
theorem fault?_eq (h : Declares ts draft layout first) (hookFor : String → Option (Hook α)) :
    Cfg.fault? draft.symbols.length (Grammar.rulesIn (draft.declarations hookFor)) =
      if startName ∈ layout.productionLines.map ProductionLine.left then
        some (.badStart (1 + (layout.productionLines.map ProductionLine.left).idxOf startName))
      else none := by
  obtain ⟨right, rest, hrules, hlefts, hrange⟩ := h.exists_rules hookFor
  have hmap : rest.map Rule.left =
      (layout.productionLines.map ProductionLine.left).map draft.symbols.idxOf := by
    rw [hlefts, List.map_map]
    rfl
  have hzero : ∀ name, draft.symbols.idxOf name = 0 ↔ name = startName :=
    fun name => h.idxOf_eq_zero_iff
  rw [hrules, Cfg.fault?_of_inRange hrange, hmap, idxOf_map hzero]
  refine if_congr ?_ rfl rfl
  simp [hzero]

end Declares

/-! ## Texts -/

namespace Draft

/-- A grammar text that was read fails to make a grammar exactly when a production line has the
start on its left, and the error names the first such line.  Otherwise it makes a grammar that holds
what the text declares. -/
theorem build_fails_only_at_start {text : String} (h : ofText text = .ok draft)
    (hookFor : String → Option (Hook α)) :
    ∃ ts layout first, tokens text.toList = .ok ts ∧ Declares ts draft layout first ∧
      ((∃ error, draft.build hookFor = .error error) ↔
        startName ∈ layout.productionLines.map ProductionLine.left) ∧
      (∀ error, draft.build hookFor = .error error → error =
        .badStart (1 + (layout.productionLines.map ProductionLine.left).idxOf startName)) ∧
      (startName ∉ layout.productionLines.map ProductionLine.left →
        ∃ g, draft.build hookFor = .ok g ∧ Built draft hookFor g) := by
  obtain ⟨ts, hts, hdraft⟩ : ∃ ts, tokens text.toList = .ok ts ∧ ofTokens ts = .ok draft := by
    rw [ofText, ofChars] at h
    split at h
    · cases h
    · next ts hts => exact ⟨ts, hts, h⟩
  obtain ⟨layout, first, hdeclares⟩ := exists_declares hts hdraft
  have herror : ∀ error, draft.build hookFor = .error error ↔
      Cfg.fault? draft.symbols.length (Grammar.rulesIn (draft.declarations hookFor)) = some error :=
    fun error => Grammar.build_eq_error_iff_fault? hdeclares.nodup_symbols
  simp only [hdeclares.fault?_eq hookFor] at herror
  refine ⟨ts, layout, first, hts, hdeclares, ?_, ?_, ?_⟩
  · simp only [herror]
    split_ifs with hstart <;> simp [hstart]
  · intro error hbuild
    rw [herror] at hbuild
    split_ifs at hbuild
    exact (Option.some.inj hbuild).symm
  · intro hstart
    cases hbuild : draft.build hookFor with
    | ok g => exact ⟨g, rfl, built_of_build hbuild⟩
    | error error =>
      rw [herror, if_neg hstart] at hbuild
      cases hbuild

/-- What a text declares whose second production line, after an empty group, has the start on its
left. -/
def redefined : Draft where
  symbols := ["Start", "E", "num"]
  nonterminalCount := 2
  groups := [⟨.none, [⟨"start", 0, [1]⟩, ⟨"rule1", 1, [2]⟩]⟩, ⟨.left, []⟩,
    ⟨.right, [⟨"again", 0, [1]⟩]⟩]

/-- This text makes no grammar, because of its second production line. -/
theorem build_fails_only_at_start_redefined :
    ofText "E -> num\n%left\n%right\nagain: Start -> E" = .ok redefined ∧
      ∃ ts layout first,
        tokens "E -> num\n%left\n%right\nagain: Start -> E".toList = .ok ts ∧
        Declares ts redefined layout first ∧
        startName ∈ layout.productionLines.map ProductionLine.left ∧
        redefined.build (fun _ => (none : Option (Hook String))) = .error (.badStart 2) := by
  have htext : ofText "E -> num\n%left\n%right\nagain: Start -> E" = .ok redefined := by
    decide +kernel
  have hbuild : redefined.build (fun _ => (none : Option (Hook String))) =
      .error (.badStart 2) := rfl
  obtain ⟨ts, layout, first, hts, hdeclares, hfails, -, -⟩ :=
    build_fails_only_at_start htext fun _ => (none : Option (Hook String))
  exact ⟨htext, ts, layout, first, hts, hdeclares, hfails.1 ⟨_, hbuild⟩, hbuild⟩

end Draft

end ShiftReduce.GrammarText
