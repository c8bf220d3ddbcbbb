import ShiftReduce.Proofs.Parser.Marks
import ShiftReduce.Tree.Cached

/-!
# Answers that are kept stay right

An answer that a tree keeps says whether the tree or anything below it has a negative state.  It
would become wrong if something changed below it; but a state is only replaced at the root, where
the answer is forgotten, and a mark is only written to a root that keeps no answer.  So all answers
in all trees that a program has are right at any time, however often and wherever it has asked.

* `CachedTree.Below`: a tree and all below it;
* `CachedTree.Right`: every answer that is kept below is right;
* `CachedTree.Asked`, `CachedTree.asked_query`: asking a tree;
* `CachedTree.right_relabel`, `CachedTree.right_queryAt`: the ways to new trees;
* `CachedTree.right_of_apply`, `CachedTree.right_of_run`: an operation, and whole programs;
* `CachedTree.query_isError`: all of this about the trees of a program and those below them.
-/

namespace ShiftReduce.CachedTree

variable {α : Type} {t part : CachedTree α} {ts : List (CachedTree α)} {answer : Bool}

/-! ## What is below -/

/-- The tree itself, or one below it. -/
inductive Below : CachedTree α → CachedTree α → Prop
  | self (t : CachedTree α) : Below t t
  | part {b part t : CachedTree α} (hpart : part ∈ t.parts) (hb : Below b part) : Below b t

/-- What holds of trees when it holds of their parts holds of all trees. -/
theorem induct {P : CachedTree α → Prop} (h : ∀ t, (∀ part ∈ t.parts, P part) → P t)
    (t : CachedTree α) : P t := by
  refine @CachedTree.rec α P (fun ts => ∀ t ∈ ts, P t) (fun _ => h _ (by simp [parts]))
    (fun _ _ => h _ (by simp [parts])) (fun _ _ hinner => h _ (by simpa [parts] using hinner))
    (fun _ _ _ hchildren => h _ hchildren) (by simp) ?_ t
  intro head tail hhead htail t ht
  rcases List.mem_cons.1 ht with rfl | ht
  · exact hhead
  · exact htail t ht

theorem Below.trans {a b : CachedTree α} (hab : Below a b) (hb : Below b t) : Below a t := by
  induction hb with
  | self => exact hab
  | part hpart _ ih => exact .part hpart ih

theorem below_of_below? {path : List Nat} {b : CachedTree α} (h : below? path t = some b) :
    Below b t := by
  induction path generalizing t with
  | nil =>
    cases h
    exact .self _
  | cons i path ih =>
    obtain ⟨part, hpart, hb⟩ := Option.bind_eq_some_iff.1 h
    exact .part (List.mem_of_getElem? hpart) (ih hb)

theorem eraseAll_eq_map (ts : List (CachedTree α)) : eraseAll ts = ts.map erase := by
  induction ts with
  | nil => rfl
  | cons t ts ih => rw [eraseAll, ih, List.map_cons]

/-- A tree is in error by its state or by one of its parts. -/
theorem isError_erase_iff :
    t.erase.isError = true ↔ t.state < 0 ∨ ∃ part ∈ t.parts, part.erase.isError = true := by
  cases t with
  | blank tag => simp [erase, Tree.isError, state, CachedTree.tag, parts]
  | leaf tag value => simp [erase, Tree.isError, state, CachedTree.tag, parts]
  | wrap tag inner => simp [erase, Tree.isError, state, CachedTree.tag, parts]
  | node tag production children =>
    simp [erase, Tree.isError, state, CachedTree.tag, parts, Tree.anyError_iff, eraseAll_eq_map]

/-- A tree is in error just when a state in it is negative. -/
theorem isError_erase_iff_exists_below :
    t.erase.isError = true ↔ ∃ b, Below b t ∧ b.state < 0 := by
  induction t using induct with
  | h t ih =>
    rw [isError_erase_iff]
    constructor
    · rintro (hstate | ⟨part, hpart, herror⟩)
      · exact ⟨t, .self t, hstate⟩
      · obtain ⟨b, hb, hstate⟩ := (ih part hpart).1 herror
        exact ⟨b, .part hpart hb, hstate⟩
    · rintro ⟨b, hb, hstate⟩
      cases hb with
      | self => exact .inl hstate
      | part hpart hb => exact .inr ⟨_, hpart, (ih _ hpart).2 ⟨b, hb, hstate⟩⟩

/-! ## Right answers -/

/-- Every answer that the tree and the trees below it keep is right. -/
def Right (t : CachedTree α) : Prop :=
  ∀ b, Below b t → ∀ answer, b.tag.answer = some answer → b.erase.isError = answer

theorem right_iff :
    t.Right ↔ (∀ answer, t.tag.answer = some answer → t.erase.isError = answer) ∧
      ∀ part ∈ t.parts, part.Right := by
  constructor
  · exact fun h => ⟨h t (.self t), fun part hpart b hb => h b (.part hpart hb)⟩
  · rintro ⟨hroot, hparts⟩ b hb
    cases hb with
    | self => exact hroot
    | part hpart hb => exact hparts _ hpart b hb

theorem Right.below (h : t.Right) {b : CachedTree α} (hb : Below b t) : b.Right :=
  fun c hc => h c (hc.trans hb)

/-- A tree that keeps no answer at its root is right if its parts are. -/
theorem right_of_answer_eq_none (hanswer : t.tag.answer = none) (h : ∀ part ∈ t.parts, part.Right) :
    t.Right := by
  refine right_iff.2 ⟨fun answer heq => ?_, h⟩
  rw [hanswer] at heq
  cases heq

/-- What the tag alone tells is right. -/
theorem Right.eq_of_known? (h : t.Right) (hknown : t.tag.known? = some answer) :
    t.erase.isError = answer := by
  unfold CachedTag.known? at hknown
  split at hknown
  · next kept hkept =>
    cases hknown
    exact (right_iff.1 h).1 _ hkept
  · split at hknown
    · next hstate =>
      cases hknown
      exact isError_erase_iff.2 (.inl hstate)
    · cases hknown

theorem not_neg_of_known?_eq_none {tag : CachedTag} (h : tag.known? = none) : ¬ tag.state < 0 := by
  unfold CachedTag.known? at h
  split at h
  · cases h
  · split at h
    · cases h
    · next hstate => exact hstate

/-! ## Asking -/

/-- A result of asking a tree: the right answer, and the same tree with right answers. -/
structure Asked (t : CachedTree α) (result : Bool × CachedTree α) : Prop where
  answer_eq : result.1 = t.erase.isError
  erase_eq : result.2.erase = t.erase
  right : result.2.Right

/-- A result of asking some trees. -/
structure AskedAny (ts : List (CachedTree α)) (result : Bool × List (CachedTree α)) : Prop where
  answer_eq : result.1 = Tree.anyError (eraseAll ts)
  erase_eq : eraseAll result.2 = eraseAll ts
  right : ∀ t ∈ result.2, t.Right

theorem askedAny_queryAny_of (hright : ∀ t ∈ ts, t.Right) (h : ∀ t ∈ ts, Asked t t.query) :
    AskedAny ts (queryAny ts) := by
  induction ts with
  | nil => exact ⟨rfl, rfl, by simp [queryAny]⟩
  | cons t ts ih =>
    have ht := h t List.mem_cons_self
    have htail : ∀ t ∈ ts, t.Right := fun u hu => hright u (List.mem_cons_of_mem t hu)
    unfold queryAny
    generalize t.query = result at ht
    obtain ⟨answer, asked⟩ := result
    cases answer with
    | true =>
      -- the trees after the first one in error are not asked
      refine ⟨?_, ?_, ?_⟩
      · rw [eraseAll, Tree.anyError, ← ht.answer_eq]
        rfl
      · rw [eraseAll, ht.erase_eq, eraseAll]
      · rintro u (_ | ⟨_, hu⟩)
        · exact ht.right
        · exact htail u hu
    | false =>
      have hrest := ih htail fun u hu => h u (List.mem_cons_of_mem t hu)
      refine ⟨?_, ?_, ?_⟩
      · rw [eraseAll, Tree.anyError, ← ht.answer_eq]
        exact hrest.answer_eq
      · rw [eraseAll, ht.erase_eq, eraseAll, hrest.erase_eq]
      · rintro u (_ | ⟨_, hu⟩)
        · exact ht.right
        · exact hrest.right u hu

/-- A tree that keeps the right answer above parts with right answers. -/
theorem asked_of_keep {asked : CachedTree α} (hanswer : answer = t.erase.isError)
    (hkept : asked.tag.answer = some answer) (herase : asked.erase = t.erase)
    (hparts : ∀ part ∈ asked.parts, part.Right) : Asked t (answer, asked) := by
  refine ⟨hanswer, herase, right_iff.2 ⟨fun kept hkept' => ?_, hparts⟩⟩
  rw [hkept] at hkept'
  cases hkept'
  rw [herase, hanswer]

/-- Asking gives the right answer and changes nothing but the answers that are kept. -/
theorem asked_query (h : t.Right) : Asked t t.query := by
  induction t using induct with
  | h t ih =>
    cases hknown : t.tag.known? with
    | some answer =>
      have hquery : t.query = (answer, t) := by
        cases t <;> simp only [CachedTree.tag] at hknown <;> simp only [query, hknown]
      rw [hquery]
      exact ⟨(h.eq_of_known? hknown).symm, rfl, h⟩
    | none =>
      have hstate : ¬ t.tag.state < 0 := not_neg_of_known?_eq_none hknown
      have hparts := (right_iff.1 h).2
      cases t with
      | blank tag =>
        simp only [CachedTree.tag] at hknown hstate
        have hquery : (blank tag : CachedTree α).query = (false, blank (tag.keep false)) := by
          simp only [query, hknown]
        rw [hquery]
        exact asked_of_keep (decide_eq_false hstate).symm rfl rfl hparts
      | leaf tag value =>
        simp only [CachedTree.tag] at hknown hstate
        have hquery : (leaf tag value).query = (false, leaf (tag.keep false) value) := by
          simp only [query, hknown]
        rw [hquery]
        exact asked_of_keep (decide_eq_false hstate).symm rfl rfl hparts
      | wrap tag inner =>
        simp only [CachedTree.tag] at hknown hstate
        have hinner := ih inner List.mem_cons_self (hparts inner List.mem_cons_self)
        have hquery : (wrap tag inner).query =
            (inner.query.1, wrap (tag.keep inner.query.1) inner.query.2) := by
          simp only [query, hknown]
        rw [hquery]
        refine asked_of_keep ?_ rfl ?_ ?_
        · simp [hinner.answer_eq, erase, Tree.isError, hstate]
        · rw [erase, hinner.erase_eq]
          rfl
        · simpa [parts] using hinner.right
      | node tag production children =>
        simp only [CachedTree.tag] at hknown hstate
        have hchildren : AskedAny children (queryAny children) :=
          askedAny_queryAny_of hparts fun c hc => ih c hc (hparts c hc)
        have hquery : (node tag production children).query =
            ((queryAny children).1,
              node (tag.keep (queryAny children).1) production (queryAny children).2) := by
          simp only [query, hknown]
        rw [hquery]
        refine asked_of_keep ?_ rfl ?_ hchildren.right
        · simpa [erase, Tree.isError, hstate] using hchildren.answer_eq
        · rw [erase]
          exact congrArg _ hchildren.erase_eq

theorem askedAny_queryAny (h : ∀ t ∈ ts, t.Right) : AskedAny ts (queryAny ts) :=
  askedAny_queryAny_of h fun t ht => asked_query (h t ht)

/-! ## New trees -/

theorem right_blank (symbol : Lookahead) (state : Int) :
    (blank (.fresh symbol state) : CachedTree α).Right :=
  right_of_answer_eq_none rfl (by simp [parts])

theorem right_scalar (symbol : Nat) (value : α) : (scalar symbol value).Right :=
  right_of_answer_eq_none rfl (by simp [scalar, parts])

theorem right_nested (h : t.Right) (symbol : Nat) : (nested symbol t).Right :=
  right_of_answer_eq_none rfl (by simpa [nested, parts] using h)

theorem right_reduction (h : ∀ t ∈ ts, t.Right) (symbol production : Nat) :
    (reduction symbol production ts).Right :=
  right_of_answer_eq_none rfl (askedAny_queryAny h).right

/-- Without the answers this is the reduction of the children without answers. -/
theorem erase_reduction (h : ∀ t ∈ ts, t.Right) (symbol production : Nat) :
    (reduction symbol production ts).erase = Tree.reduction symbol production (eraseAll ts) := by
  have hasked := askedAny_queryAny h
  rw [reduction, Tree.reduction, erase, hasked.erase_eq, hasked.answer_eq]
  rfl

theorem parts_withTag (t : CachedTree α) (tag : CachedTag) : (t.withTag tag).parts = t.parts := by
  cases t <;> rfl

theorem tag_withTag (t : CachedTree α) (tag : CachedTag) : (t.withTag tag).tag = tag := by
  cases t <;> rfl

/-- Without the answers this is the tree without answers, with its state replaced. -/
theorem erase_withState (t : CachedTree α) (state : Int) :
    (t.withState state).erase = t.erase.withState state := by
  cases t <;> rfl

theorem right_withState (h : t.Right) (state : Int) : (t.withState state).Right := by
  refine right_of_answer_eq_none (by rw [withState, tag_withTag]; rfl) ?_
  rw [withState, parts_withTag]
  exact (right_iff.1 h).2

theorem tag_renew (symbol : Nat) (t : CachedTree α) : (t.renew symbol).tag.answer = none := by
  cases t <;> rfl

theorem right_renew (h : t.Right) (symbol : Nat) : (t.renew symbol).Right := by
  have hparts := (right_iff.1 h).2
  cases t with
  | blank tag => exact right_blank _ _
  | leaf tag value => exact right_scalar _ _
  | wrap tag inner => exact right_nested (hparts inner List.mem_cons_self) symbol
  | node tag production children => exact right_reduction hparts symbol production

/-- A mark on a tree that keeps no answer makes no answer wrong. -/
theorem right_mark (h : t.Right) (hanswer : t.tag.answer = none) : t.mark.Right := by
  refine right_of_answer_eq_none (by rw [mark, tag_withTag]; exact hanswer) ?_
  rw [mark, parts_withTag]
  exact (right_iff.1 h).2

theorem right_relabel (h : t.Right) (symbol : Nat) : (t.relabel symbol).Right := by
  have hrenew := right_renew (asked_query h).right symbol
  unfold relabel
  dsimp only
  split
  · exact right_mark hrenew (tag_renew symbol _)
  · exact hrenew

/-- A marked tree under another symbol, without the answers. -/
theorem erase_mark_renew (h : t.Right) (symbol : Nat) :
    (t.renew symbol).mark.erase = t.erase.withTag ⟨some symbol, Tree.errorState⟩ := by
  cases t with
  | blank tag => rfl
  | leaf tag value => rfl
  | wrap tag inner => rfl
  | node tag production children =>
    have hasked := askedAny_queryAny (right_iff.1 h).2
    exact congrArg (Tree.node _ production) hasked.erase_eq

/-- A tree without errors under another symbol, without the answers. -/
theorem erase_renew (h : t.Right) (herror : t.erase.isError = false) (symbol : Nat) :
    (t.renew symbol).erase = t.erase.withTag ⟨some symbol, 0⟩ := by
  cases t with
  | blank tag => rfl
  | leaf tag value => rfl
  | wrap tag inner => rfl
  | node tag production children =>
    have hchildren : Tree.anyError (eraseAll children) = false := (Bool.or_eq_false_iff.1 herror).2
    have hright : ∀ t ∈ children, t.Right := (right_iff.1 h).2
    rw [renew, erase_reduction hright, Tree.reduction, hchildren]
    rfl

/-- Without the answers this is the relabelled tree without answers. -/
theorem erase_relabel (h : t.Right) (symbol : Nat) :
    (t.relabel symbol).erase = t.erase.relabel symbol := by
  have hasked := asked_query h
  unfold relabel Tree.relabel
  dsimp only
  rw [hasked.answer_eq]
  cases herror : t.erase.isError with
  | true =>
    rw [if_pos rfl, if_pos rfl, erase_mark_renew hasked.right, hasked.erase_eq]
  | false =>
    rw [if_neg Bool.false_ne_true, if_neg Bool.false_ne_true,
      erase_renew hasked.right (by rw [hasked.erase_eq, herror]), hasked.erase_eq]

/-! ## Asking below -/

/-- A part can be replaced with one that is the same but for its answers. -/
theorem right_withPart {i : Nat} {asked : CachedTree α} (h : t.Right)
    (hpart : t.parts[i]? = some part) (herase : asked.erase = part.erase) (hasked : asked.Right) :
    (t.withPart i asked).Right ∧ (t.withPart i asked).erase = t.erase := by
  obtain ⟨hroot, hparts⟩ := right_iff.1 h
  cases t with
  | blank tag => cases hpart
  | leaf tag value => cases hpart
  | wrap tag inner =>
    obtain rfl : part = inner := by
      have hmem := List.mem_of_getElem? hpart
      simpa [parts] using hmem
    have hsame : (wrap tag asked).erase = (wrap tag part).erase := by rw [erase, erase, herase]
    refine ⟨right_iff.2 ⟨fun answer hanswer => ?_, by simpa [withPart, parts] using hasked⟩, hsame⟩
    exact (congrArg Tree.isError hsame).trans (hroot answer hanswer)
  | node tag production children =>
    have hchildren : eraseAll (children.set i asked) = eraseAll children := by
      have hsame : (children.map erase)[i]? = some part.erase := by
        rw [List.getElem?_map]
        exact congrArg (Option.map erase) hpart
      rw [eraseAll_eq_map, eraseAll_eq_map, List.map_set, herase]
      obtain ⟨hi, heq⟩ := List.getElem?_eq_some_iff.1 hsame
      rw [← heq, List.set_getElem_self]
    have hsame : (node tag production (children.set i asked)).erase =
        (node tag production children).erase := by rw [erase, erase, hchildren]
    refine ⟨right_iff.2 ⟨fun answer hanswer => ?_, fun u hu => ?_⟩, hsame⟩
    · exact (congrArg Tree.isError hsame).trans (hroot answer hanswer)
    · rcases List.mem_or_eq_of_mem_set hu with hu | rfl
      · exact hparts u hu
      · exact hasked

/-- Asking a tree in its place changes nothing but the answers that are kept. -/
theorem right_queryAt {path : List Nat} {asked : CachedTree α} (h : t.Right)
    (hquery : queryAt path t = some (answer, asked)) : asked.Right ∧ asked.erase = t.erase := by
  induction path generalizing t answer asked with
  | nil =>
    have hasked := asked_query h
    rw [Option.some.inj hquery] at hasked
    exact ⟨hasked.right, hasked.erase_eq⟩
  | cons i path ih =>
    obtain ⟨part, hpart, hrest⟩ := Option.bind_eq_some_iff.1 hquery
    obtain ⟨⟨answer', part'⟩, hpart', hsome⟩ := Option.bind_eq_some_iff.1 hrest
    cases hsome
    obtain ⟨hright, herase⟩ := ih ((right_iff.1 h).2 part (List.mem_of_getElem? hpart)) hpart'
    exact right_withPart h hpart herase hright

/-- The answer is the one of the tree at the end of the path. -/
theorem exists_below?_of_queryAt {path : List Nat} {asked : CachedTree α}
    (hquery : queryAt path t = some (answer, asked)) :
    ∃ b, below? path t = some b ∧ answer = b.query.1 := by
  induction path generalizing t answer asked with
  | nil => exact ⟨t, rfl, congrArg Prod.fst (Option.some.inj hquery).symm⟩
  | cons i path ih =>
    obtain ⟨part, hpart, hrest⟩ := Option.bind_eq_some_iff.1 hquery
    obtain ⟨⟨answer', part'⟩, hpart', hsome⟩ := Option.bind_eq_some_iff.1 hrest
    cases hsome
    obtain ⟨b, hb, hanswer⟩ := ih hpart'
    exact ⟨b, Option.bind_eq_some_iff.2 ⟨part, hpart, hb⟩, hanswer⟩

/-! ## Programs -/

variable {trees trees' : List (CachedTree α)}

theorem right_append (h : ∀ t ∈ trees, t.Right) (ht : t.Right) : ∀ u ∈ trees ++ [t], u.Right := by
  intro u hu
  rcases List.mem_append.1 hu with hu | hu
  · exact h u hu
  · rwa [List.mem_singleton.1 hu]

theorem right_set (h : ∀ t ∈ trees, t.Right) (ht : t.Right) (i : Nat) :
    ∀ u ∈ trees.set i t, u.Right := by
  intro u hu
  rcases List.mem_or_eq_of_mem_set hu with hu | rfl
  · exact h u hu
  · exact ht

/-- The trees that a reduction uses are among those that are there. -/
theorem mem_of_mapM_getElem? {sources : List Nat}
    (h : (sources.mapM fun i => trees[i]?) = some ts) (ht : t ∈ ts) : t ∈ trees := by
  induction sources generalizing ts with
  | nil =>
    cases h
    cases ht
  | cons i sources ih =>
    rw [List.mapM_cons] at h
    obtain ⟨u, hu, hrest⟩ := Option.bind_eq_some_iff.1 h
    obtain ⟨us, hus, hsome⟩ := Option.bind_eq_some_iff.1 hrest
    cases hsome
    rcases List.mem_cons.1 ht with rfl | ht
    · exact List.mem_of_getElem? hu
    · exact ih hus ht

/-- An operation keeps all answers right. -/
theorem right_of_apply {operation : Operation α} (h : ∀ t ∈ trees, t.Right)
    (happly : operation.apply trees = some trees') : ∀ t ∈ trees', t.Right := by
  have hget : ∀ {i : Nat} {t : CachedTree α}, trees[i]? = some t → t.Right :=
    fun ht => h _ (List.mem_of_getElem? ht)
  cases operation with
  | scalar symbol value =>
    cases happly
    exact right_append h (right_scalar symbol value)
  | empty symbol =>
    cases happly
    exact right_append h (right_blank _ _)
  | endOfInput =>
    cases happly
    exact right_append h (right_blank _ _)
  | nested symbol source =>
    obtain ⟨t, ht, hsome⟩ := Option.bind_eq_some_iff.1 happly
    cases hsome
    exact right_append h (right_nested (hget ht) symbol)
  | reduction symbol production sources =>
    obtain ⟨ts, hts, hsome⟩ := Option.bind_eq_some_iff.1 happly
    cases hsome
    exact right_append h
      (right_reduction (fun t ht => h t (mem_of_mapM_getElem? hts ht)) symbol production)
  | relabel source symbol =>
    obtain ⟨t, ht, hsome⟩ := Option.bind_eq_some_iff.1 happly
    cases hsome
    exact right_append h (right_relabel (hget ht) symbol)
  | withState source state =>
    obtain ⟨t, ht, hsome⟩ := Option.bind_eq_some_iff.1 happly
    cases hsome
    exact right_append h (right_withState (hget ht) state)
  | setState source state =>
    obtain ⟨t, ht, hsome⟩ := Option.bind_eq_some_iff.1 happly
    cases hsome
    exact right_set h (right_withState (hget ht) state) source
  | clone source =>
    obtain ⟨t, ht, hsome⟩ := Option.bind_eq_some_iff.1 happly
    cases hsome
    exact right_append h (hget ht)
  | extract source path =>
    obtain ⟨t, ht, hrest⟩ := Option.bind_eq_some_iff.1 happly
    obtain ⟨b, hb, hsome⟩ := Option.bind_eq_some_iff.1 hrest
    cases hsome
    exact right_append h ((hget ht).below (below_of_below? hb))
  | query source path =>
    obtain ⟨t, ht, hrest⟩ := Option.bind_eq_some_iff.1 happly
    obtain ⟨result, hresult, hsome⟩ := Option.bind_eq_some_iff.1 hrest
    cases hsome
    exact right_set h (right_queryAt (hget ht) hresult).1 source

/-- All answers are right after any program. -/
theorem right_of_run {program : List (Operation α)} (h : run program = some trees) :
    ∀ t ∈ trees, t.Right := by
  have hfold : ∀ before : List (CachedTree α), (∀ t ∈ before, t.Right) →
      program.foldlM Operation.apply before = some trees → ∀ t ∈ trees, t.Right := by
    clear h
    induction program with
    | nil =>
      rintro before hbefore hrun
      cases hrun
      exact hbefore
    | cons operation program ih =>
      intro before hbefore hrun
      rw [List.foldlM_cons] at hrun
      obtain ⟨after, hafter, hrest⟩ := Option.bind_eq_some_iff.1 hrun
      exact ih after (right_of_apply hbefore hafter) hrest
  exact hfold [] (by simp) h

/-- Take any tree that a program has, or any tree below it.  When it is asked, it is in error just
when its state or the state of a tree below it is negative; this is the answer that the program gets
when it asks the tree in its place.  It is also so after the state of the tree has been replaced:
with a state that is not negative only what is below it counts.  The tree is in error under another
symbol just when it is in error. -/
theorem query_isError {program : List (Operation α)} (hrun : run program = some trees)
    (ht : t ∈ trees) :
    (∀ path answer asked, queryAt path t = some (answer, asked) →
      ∃ b, below? path t = some b ∧ answer = b.query.1) ∧
    ∀ b, Below b t →
      (b.query.1 = true ↔ ∃ c, Below c b ∧ c.state < 0) ∧
      (∀ state, (b.withState state).query.1 = true ↔
        state < 0 ∨ ∃ part ∈ b.parts, ∃ c, Below c part ∧ c.state < 0) ∧
      ∀ symbol, (b.relabel symbol).query.1 = b.query.1 := by
  refine ⟨fun path answer asked hquery => exists_below?_of_queryAt hquery, fun b hb => ?_⟩
  have hright : b.Right := (right_of_run hrun t ht).below hb
  refine ⟨?_, fun state => ?_, fun symbol => ?_⟩
  · rw [(asked_query hright).answer_eq, isError_erase_iff_exists_below]
  · have hstate : (b.withState state).state = state := by
      rw [CachedTree.state, withState, tag_withTag]
      rfl
    rw [(asked_query (right_withState hright state)).answer_eq, isError_erase_iff, hstate,
      withState, parts_withTag]
    simp only [isError_erase_iff_exists_below]
  · rw [(asked_query (right_relabel hright symbol)).answer_eq, erase_relabel hright,
      Tree.isError_relabel, (asked_query hright).answer_eq]

/-- A tree that has been asked, marked, asked below and cleared again is still in error by what it
wraps. -/
theorem query_isError_cleared :
    ∃ (trees : List (CachedTree String)) (t : CachedTree String),
      run [.scalar 3 "x", .withState 0 (-1), .nested 2 1, .query 2 [], .setState 2 (-3),
        .query 2 [0], .setState 2 0] = some trees ∧
      trees[2]? = some t ∧ t.state = 0 ∧ t.query.1 = true ∧ (t.relabel 4).query.1 = true := by
  have hrun : ∃ (trees : List (CachedTree String)) (t : CachedTree String),
      run [.scalar 3 "x", .withState 0 (-1), .nested 2 1, .query 2 [], .setState 2 (-3),
        .query 2 [0], .setState 2 0] = some trees ∧
      trees[2]? = some t ∧ t.state = 0 ∧ ∃ part ∈ t.parts, part.state < 0 :=
    ⟨_, _, rfl, rfl, rfl, _, List.mem_cons_self, by decide⟩
  obtain ⟨trees, t, hrun, ht, hstate, part, hpart, hneg⟩ := hrun
  obtain ⟨-, hbelow⟩ := query_isError hrun (List.mem_of_getElem? ht)
  obtain ⟨hanswer, -, hrelabel⟩ := hbelow t (.self t)
  have herror : t.query.1 = true := hanswer.2 ⟨part, .part hpart (.self part), hneg⟩
  exact ⟨trees, t, hrun, ht, hstate, herror, (hrelabel 4).trans herror⟩

end ShiftReduce.CachedTree
