import ShiftReduce.Proofs.Calc.Evaluation
import ShiftReduce.Proofs.Calc.Pieces
import ShiftReduce.Proofs.Parser.Pulls

/-!
# The span of a result covers the expression

A hook replaces a reduction only where all children are leaves, and merges the spans of these
children.  Elsewhere the children stay in the tree, and their leaves are merged in the end.  So at
every point of a run, in whatever mixture, a tree on the stack covers the same as the tokens it
stands for.  The tokens of a text follow each other, so that the root covers the text from the start
of the first token to the end of the last.

* `cover`: what the leaves of a tree cover;
* `Covers`, `Standard.cover_reduce`: trees cover what derivations yield, and reductions keep this;
* `Standard.alike_covering`: the run of the calculator beside the one without hooks;
* `Standard.cover_of_accepted`, `Standard.item_of_rejected`: how a run over tokens ends;
* `ResultCovers`: what the span of an evaluation covers;
* `span_covers_expression`: all of this about a text.
-/

namespace ShiftReduce.Calc

/-! ## What trees cover -/

/-- The spans of the leaves of a tree, merged. -/
def cover (t : Tree Token) : Option Span := coveredSpan t.leaves

/-- The tree holds a value. -/
def IsLeaf (t : Tree Token) : Prop := ∃ token, t.value? = some token

theorem coveredSpan_eq_hull (ts : List (Tree Token)) : coveredSpan ts = hull (ts.map tokenSpan?) := by
  have hfold : ∀ s, (ts.filterMap Tree.value?).foldl (fun s token => mergeSpans s token.span) s =
      (ts.map tokenSpan?).foldl mergeSpans s := by
    induction ts with
    | nil => exact fun _ => rfl
    | cons t ts ih =>
      intro s
      cases hvalue : t.value? with
      | none =>
        have hspan : tokenSpan? t = none := by rw [tokenSpan?, hvalue, Option.bind_none]
        rw [List.filterMap_cons_none hvalue, List.map_cons, List.foldl_cons, hspan,
          mergeSpans_none_right, ih]
      | some token =>
        have hspan : tokenSpan? t = token.span := by rw [tokenSpan?, hvalue, Option.bind_some]
        rw [List.filterMap_cons_some hvalue, List.map_cons, List.foldl_cons, List.foldl_cons,
          hspan, ih]
  exact hfold none

theorem cover_of_isLeaf {t : Tree Token} (h : IsLeaf t) : cover t = tokenSpan? t := by
  obtain ⟨token, htoken⟩ := h
  cases t with
  | leaf tag value =>
    have hleaves : (Tree.leaf tag value).leaves = [Tree.leaf tag value] := rfl
    rw [cover, hleaves, coveredSpan_eq_hull, List.map_singleton, hull_cons]
    exact mergeSpans_none_right _
  | blank | wrap | node => cases htoken

theorem hull_map_leavesAll (ts : List (Tree Token)) :
    hull ((Tree.leavesAll ts).map tokenSpan?) = hull (ts.map cover) := by
  induction ts with
  | nil => rfl
  | cons t ts ih =>
    rw [Tree.leavesAll, List.map_append, hull_append, ih, List.map_cons, hull_cons, cover,
      coveredSpan_eq_hull]

theorem cover_reduction (left production : Nat) (children : List (Tree Token)) :
    cover (Tree.reduction left production children) = hull (children.map cover) := by
  rw [← hull_map_leavesAll, cover, coveredSpan_eq_hull]
  rfl

theorem cover_withTag (tag : Tag) (t : Tree Token) : cover (t.withTag tag) = cover t := by
  cases t <;> rfl

theorem cover_stamp (q : Nat) (t : Tree Token) : cover (stamp q t) = cover t := by
  unfold stamp
  split
  · rfl
  · exact cover_withTag _ t

theorem isLeaf_of_numberIn? {t : Tree Token} {n : Int} (h : numberIn? t = some n) : IsLeaf t := by
  unfold numberIn? at h
  split at h
  · cases h
  · obtain ⟨token, htoken, -⟩ := Option.bind_eq_some_iff.1 h
    exact ⟨token, htoken⟩

/-- A result covers what its leaves covered. -/
theorem cover_folded (left : Nat) (result : Option Int) (children : List (Tree Token)) :
    cover (folded left result children) = coveredSpan children := by
  cases result <;> exact cover_of_isLeaf ⟨_, rfl⟩

theorem hull_map_cover_of_isLeaf {ts : List (Tree Token)} (h : ∀ t ∈ ts, IsLeaf t) :
    hull (ts.map cover) = coveredSpan ts := by
  rw [coveredSpan_eq_hull, List.map_congr_left fun t ht => cover_of_isLeaf (h t ht)]

/-! ## Hooks -/

/-- A hook that replaces a number keeps its span. -/
theorem cover_of_foldNumber {left : Nat} {a tree : Tree Token}
    (h : foldNumber left [a] = some tree) : cover tree = coveredSpan [a] := by
  obtain ⟨token, htoken, rfl⟩ := Option.map_eq_some_iff.1 h
  have hvalue : a.value? = some token := htoken
  have hspan : tokenSpan? a = token.span := by rw [tokenSpan?, hvalue, Option.bind_some]
  rw [cover_of_isLeaf ⟨token, rfl⟩, coveredSpan_eq_hull, List.map_singleton, hspan]
  exact (mergeSpans_none_left _).symm

theorem isLeaf_of_foldParen {left : Nat} {ts : List (Tree Token)} {tree : Tree Token}
    (h : foldParen left ts = some tree) :
    ∃ a b c, ts = [a, b, c] ∧ IsLeaf b ∧ cover tree = coveredSpan ts := by
  unfold foldParen at h
  split at h
  · next a b c =>
    obtain ⟨n, hn, rfl⟩ := Option.map_eq_some_iff.1 h
    exact ⟨a, b, c, rfl, isLeaf_of_numberIn? hn, cover_folded _ _ _⟩
  · cases h

theorem isLeaf_of_foldNegation {left : Nat} {ts : List (Tree Token)} {tree : Tree Token}
    (h : foldNegation left ts = some tree) :
    ∃ a b, ts = [a, b] ∧ IsLeaf b ∧ cover tree = coveredSpan ts := by
  unfold foldNegation at h
  split at h
  · next a b =>
    obtain ⟨n, hn, rfl⟩ := Option.map_eq_some_iff.1 h
    exact ⟨a, b, rfl, isLeaf_of_numberIn? hn, cover_folded _ _ _⟩
  · cases h

theorem isLeaf_of_foldBinary {operation : Int → Int → Option Int} {left : Nat}
    {ts : List (Tree Token)} {tree : Tree Token} (h : foldBinary operation left ts = some tree) :
    ∃ a t b, ts = [a, t, b] ∧ IsLeaf a ∧ IsLeaf b ∧ cover tree = coveredSpan ts := by
  unfold foldBinary at h
  split at h
  · next a t b =>
    obtain ⟨m, hm, hrest⟩ := Option.bind_eq_some_iff.1 h
    obtain ⟨n, hn, hsome⟩ := Option.bind_eq_some_iff.1 hrest
    cases hsome
    exact ⟨a, t, b, rfl, isLeaf_of_numberIn? hm, isLeaf_of_numberIn? hn, cover_folded _ _ _⟩
  · cases h

/-! ## Trees and derivations -/

/-- The tree covers what the derivation yields.  It is a leaf if this is only a token. -/
structure Covers (t : Tree Token) (d : Derivation Token) : Prop where
  cover_eq : cover t = hull (d.yield.map tokenSpan?)
  isLeaf : ∀ u, d = .token u → IsLeaf t

theorem hull_map_cover {ts : List (Tree Token)} {ds : List (Derivation Token)}
    (h : List.Forall₂ Covers ts ds) :
    hull (ts.map cover) = hull ((Derivation.yieldAll ds).map tokenSpan?) := by
  induction h with
  | nil => rfl
  | cons ht _ ih =>
    rw [List.map_cons, hull_cons, ih, ht.cover_eq, Derivation.yieldAll_cons, List.map_append,
      hull_append]

/-- The tree of the calculator covers what the other tree shows. -/
def ShowsCovered (g : Cfg) (t t' : Tree Token) : Prop :=
  ∀ d symbol, g.Depicts t' d → g.IsDerivation d symbol → Covers t d

theorem Lexed.showsCovered {t : Tree Token} (h : Lexed t) (g : Cfg) : ShowsCovered g t t := by
  intro d symbol hd hderived
  obtain ⟨span, hvalue⟩ := h.value?_eq
  have hleaf : IsLeaf t := ⟨_, hvalue⟩
  cases d with
  | token u =>
    obtain ⟨state, rfl⟩ := Cfg.depicts_token_iff.1 hd
    refine ⟨?_, fun _ _ => hleaf⟩
    rw [cover_of_isLeaf hleaf, Derivation.yield_token, List.map_singleton, hull_cons]
    simp only [tokenSpan?, Tree.value?_withState]
    exact (mergeSpans_none_right _).symm
  | node production children =>
    obtain ⟨rule, trees, state, rfl, -⟩ := Cfg.depicts_node_iff.1 hd
    cases hvalue

theorem covers_all {g : Cfg} {ts ts' : List (Tree Token)} {ds : List (Derivation Token)}
    {symbols : List Nat} (hts : List.Forall₂ (ShowsCovered g) ts ts')
    (hds : List.Forall₂ g.Depicts ts' ds) (hderived : List.Forall₂ g.IsDerivation ds symbols) :
    List.Forall₂ Covers ts ds := by
  induction hts generalizing ds symbols with
  | nil =>
    cases hds
    exact .nil
  | cons ht _ ih =>
    obtain ⟨d, ds, hd, hrest, rfl⟩ := List.forall₂_cons_left_iff.1 hds
    obtain ⟨symbol, symbols, hd', hrest', rfl⟩ := List.forall₂_cons_left_iff.1 hderived
    exact .cons (ht d symbol hd hd') (ih hrest hrest')

namespace Standard

variable {p : Parser Token} {production : Nat} {rule : Rule} {ts : List (Tree Token)}
  {ds : List (Derivation Token)}

/-! ## Reductions -/

/-- What stands for the terminals of a right side are leaves. -/
theorem isLeaf_terminals {g : Grammar Token} (h : Standard g) {f : Form}
    (hf : Form.at? forms production = some f) {symbols : List Nat}
    (hts : List.Forall₂ Covers ts ds) (hds : List.Forall₂ g.cfg.IsDerivation ds symbols) :
    List.Forall₂ (fun t symbol => symbol ∈ f.terminals → IsLeaf t) ts symbols := by
  induction hts generalizing symbols with
  | nil =>
    cases hds
    exact .nil
  | cons ht _ ih =>
    obtain ⟨symbol, symbols, hd, hrest, rfl⟩ := List.forall₂_cons_left_iff.1 hds
    refine .cons (fun hmem => ?_) (ih hrest)
    obtain ⟨u, hu, -⟩ := h.expressions.cfg.exists_token hf hmem hd
    exact ht.isLeaf u hu

/-- Where a hook replaces a reduction, all children are leaves, and the replacement covers what they
do. -/
theorem isLeaf_of_replacement {g : Grammar Token} (h : Standard g)
    (hrule : g.cfg.rules[production]? = some rule) (hts : List.Forall₂ Covers ts ds)
    (hds : List.Forall₂ g.cfg.IsDerivation ds rule.right) {tree : Tree Token}
    (htree : g.replacement? production ts = some tree) :
    (∀ t ∈ ts, IsLeaf t) ∧ cover tree = coveredSpan ts := by
  rcases h.expressions.cfg.rule_cases hrule with ⟨rfl, -⟩ | ⟨f, hf, rfl⟩
  · have hnone : g.replacement? 0 ts = none := by
      simp [Grammar.replacement?, Grammar.hook?, h.hooks_eq]
    rw [hnone] at htree
    cases htree
  have hterminals := h.isLeaf_terminals hf hts hds
  have hbinary : ∀ o operation, f = .joined o →
      g.hooks[production]? = some (some (foldBinary operation)) →
      (∀ t ∈ ts, IsLeaf t) ∧ cover tree = coveredSpan ts := by
    rintro o operation rfl hhook
    rw [replacement?_eq hrule hhook] at htree
    obtain ⟨a, t, b, rfl, ha, hb, hcover⟩ := isLeaf_of_foldBinary htree
    simp only [Form.right, Form.terminals, List.forall₂_cons] at hterminals
    have ht : IsLeaf t := hterminals.2.1 List.mem_cons_self
    exact ⟨by simp [ha, ht, hb], hcover⟩
  rcases form_cases hf with ⟨rfl, rfl⟩ | ⟨rfl, rfl⟩ | ⟨rfl, rfl⟩ | ⟨rfl, rfl⟩ | ⟨rfl, rfl⟩ |
    ⟨rfl, rfl⟩ | ⟨rfl, rfl⟩
  · have hhook : g.hooks[1]? = some (some foldNumber) := by rw [h.hooks_eq]; rfl
    rw [replacement?_eq hrule hhook] at htree
    simp only [Form.right, Form.terminals] at hterminals
    obtain ⟨a, _, ha, hnil, rfl⟩ := List.forall₂_cons_right_iff.1 hterminals
    cases hnil
    have ha := ha List.mem_cons_self
    exact ⟨by simpa using ha, cover_of_foldNumber htree⟩
  · have hhook : g.hooks[2]? = some (some foldParen) := by rw [h.hooks_eq]; rfl
    rw [replacement?_eq hrule hhook] at htree
    obtain ⟨a, b, c, rfl, hb, hcover⟩ := isLeaf_of_foldParen htree
    simp only [Form.right, Form.terminals, List.forall₂_cons] at hterminals
    have ha : IsLeaf a := hterminals.1 (by simp)
    have hc : IsLeaf c := hterminals.2.2.1 (by simp)
    exact ⟨by simp [ha, hb, hc], hcover⟩
  · have hhook : g.hooks[3]? = some (some foldNegation) := by rw [h.hooks_eq]; rfl
    rw [replacement?_eq hrule hhook] at htree
    obtain ⟨a, b, rfl, hb, hcover⟩ := isLeaf_of_foldNegation htree
    simp only [Form.right, Form.terminals, List.forall₂_cons] at hterminals
    have ha : IsLeaf a := hterminals.1 List.mem_cons_self
    exact ⟨by simp [ha, hb], hcover⟩
  all_goals exact hbinary _ _ rfl (by rw [h.hooks_eq]; rfl)

/-- A reduction covers what its children cover. -/
theorem cover_reduce (h : Standard p.grammar)
    (hrule : p.grammar.cfg.rules[production]? = some rule) (hts : List.Forall₂ Covers ts ds)
    (hds : List.Forall₂ p.grammar.cfg.IsDerivation ds rule.right) :
    cover (p.reduce production rule ts) = hull (ts.map cover) := by
  unfold Parser.reduce
  cases hreplaced : p.grammar.replacement? production ts with
  | some tree =>
    obtain ⟨hleaves, hcover⟩ := h.isLeaf_of_replacement hrule hts hds hreplaced
    exact hcover.trans (hull_map_cover_of_isLeaf hleaves).symm
  | none =>
    dsimp only
    split
    · next only =>
      split
      · rw [List.map_singleton, hull_cons]
        exact (cover_withTag _ only).trans (mergeSpans_none_right _).symm
      · exact cover_reduction _ _ _
    · exact cover_reduction _ _ _

/-- The parser of the calculator goes beside the one without hooks and trimming, and its trees cover
what the trees of the other one show. -/
theorem alike_covering (h : Standard p.grammar) :
    p.Alike p.bare (ShowsCovered p.grammar.cfg) where
  cfg_eq := rfl
  table_eq := rfl
  stamp := by
    intro q t t' ht d symbol hd hderived
    obtain ⟨hcover, hleaf⟩ := ht d symbol hd.of_stamp hderived
    refine ⟨by rw [cover_stamp, hcover], fun u hu => ?_⟩
    obtain ⟨token, htoken⟩ := hleaf u hu
    exact ⟨token, by rw [Tree.value?_stamp, htoken]⟩
  reduce := by
    intro production rule ts ts' hrule _ hts d symbol hd hderived
    rw [Parser.reduce_eq (p := p.bare) p.grammar.hookFree_bare rfl] at hd
    cases d with
    | token u =>
      -- the symbol of a reduction is no terminal
      cases hderived with
      | token hsymbol hterminal =>
        obtain ⟨state, heq⟩ := Cfg.depicts_token_iff.1 hd
        have hleft : some rule.left = some symbol := by
          rw [← hsymbol, ← Tree.symbol_withState u state, ← heq]
          rfl
        exact absurd (Option.some.inj hleft)
          (Cfg.left_ne_of_isTerminal hterminal (List.mem_of_getElem? hrule))
    | node q ds =>
      obtain ⟨_, trees, state, heq, -, hdepicts⟩ := Cfg.depicts_node_iff.1 hd
      obtain ⟨-, rfl, rfl⟩ := Tree.node.inj heq
      obtain ⟨rule', hrule', -, hchildren⟩ := Cfg.isDerivation_node_iff.1 hderived
      rw [hrule] at hrule'
      cases hrule'
      have hcovers := covers_all hts hdepicts hchildren
      refine ⟨?_, fun _ hu => by cases hu⟩
      rw [h.cover_reduce hrule hcovers hchildren, hull_map_cover hcovers, Derivation.yield_node]

/-! ## How a run over tokens ends -/

variable {tokens : List (Tree Token)} {root item : Tree Token} {stats : Stats}
  {unread : List (Pull Token Error)}

/-- What is accepted covers all tokens, and there are tokens. -/
theorem cover_of_accepted (h : Standard p.grammar) (hlexed : ∀ t ∈ tokens, Lexed t)
    (hends : p.Ends (Parser.start (tokens.map .token)) ⟨.accepted root, stats, unread⟩) :
    tokens ≠ [] ∧ stats.shifts = tokens.length ∧ cover root = hull (tokens.map tokenSpan?) := by
  obtain ⟨d, bareRoot, hd, rfl, hshifts, hdepicts, hbare⟩ :=
    Parser.exists_derivation_of_accepted h.expressions.cfg.start_not_mem
      (fun t ht => (hlexed t ht).symbol_ne) hends
  have hsource : ∀ t, Pull.token t ∈ d.yield.map (Pull.token : Tree Token → Pull Token Error) →
      ShowsCovered p.grammar.cfg t t := by
    intro t ht
    obtain ⟨t', ht', heq⟩ := List.mem_map.1 ht
    cases heq
    exact (hlexed t ht').showsCovered p.grammar.cfg
  obtain ⟨bareRoot', hbare', hroot⟩ := h.alike_covering.ends_accepted hsource hends
  cases hbare.unique hbare'
  refine ⟨?_, hshifts, (hroot d 0 hdepicts hd).cover_eq⟩
  obtain ⟨e, rfl, he⟩ := h.expressions.cfg.isDerivation_start_iff.1 hd
  cases he <;> simp

/-- What is rejected is the token after those that have been shifted, or the end of the input. -/
theorem item_of_rejected
    (hends : p.Ends (Parser.start (tokens.map .token)) ⟨.rejected item, stats, unread⟩) :
    item = (tokens[stats.shifts]?.getD Tree.endOfInput).withState Tree.errorState := by
  have hbare := p.alike_bare.ends_rejected (fun _ _ => trivial) hends
  obtain ⟨-, hitem, -⟩ :=
    Parser.exists_path_of_rejected (p := p.bare) p.grammar.hookFree_bare rfl hbare
  exact hitem

end Standard

/-! ## Results -/

/-- What the result for a text covers. -/
inductive ResultCovers (c : Calculator) (text : String) (ev : Evaluation) : Prop
  /-- The parse has accepted: the result covers all tokens of the source, from the start of the
  first one to the end of the last one. -/
  | expression {tokens : List (Tree Token)} {first last : Span}
    (haccepted : (c.parser.parse (c.source text)).verdict = .accepted ev.root)
    (hsource : c.source text = tokens.map .token)
    (hfirst : tokens.head?.bind tokenSpan? = some first)
    (hlast : tokens.getLast?.bind tokenSpan? = some last)
    (hspan : ev.span? = some ⟨first.start, last.stop⟩)
  /-- The parse has rejected the token after those that it has shifted: the result covers this
  token. -/
  | offending {token : Tree Token} {span : Span}
    (hrejected : (c.parser.parse (c.source text)).verdict =
      .rejected (token.withState Tree.errorState))
    (htoken : (leading (c.source text))[ev.stats.shifts]? = some token)
    (htokenSpan : tokenSpan? token = some span)
    (hspan : ev.span? = some span)
  /-- The parse has shifted all tokens of the source and has rejected the end of the input: the
  result covers nothing. -/
  | endOfInput {tokens : List (Tree Token)}
    (hrejected : (c.parser.parse (c.source text)).verdict =
      .rejected (Tree.endOfInput.withState Tree.errorState))
    (hsource : c.source text = tokens.map .token)
    (hshifts : ev.stats.shifts = tokens.length)
    (hspan : ev.span? = none)

theorem eval_eq_ok {c : Calculator} {text : String} {ev : Evaluation} (h : c.eval text = .ok ev) :
    (c.parser.parse (c.source text)).stats = ev.stats ∧
      ((c.parser.parse (c.source text)).verdict = .accepted ev.root ∨
        (c.parser.parse (c.source text)).verdict = .rejected ev.root) := by
  unfold Calculator.eval at h
  dsimp only at h
  split at h
  · next hverdict =>
    cases h
    exact ⟨rfl, .inl hverdict⟩
  · next hverdict =>
    cases h
    exact ⟨rfl, .inr hverdict⟩
  all_goals cases h

variable {tokens : List (Tree Token)} {spans : List Span}

theorem head?_bind_tokenSpan? (h : tokens.map tokenSpan? = spans.map some) :
    tokens.head?.bind tokenSpan? = spans.head? := by
  calc tokens.head?.bind tokenSpan? = (tokens.map tokenSpan?).head?.bind id := by
        cases tokens <;> rfl
    _ = spans.head? := by
        rw [h]
        cases spans <;> rfl

theorem getLast?_bind_tokenSpan? (h : tokens.map tokenSpan? = spans.map some) :
    tokens.getLast?.bind tokenSpan? = spans.getLast? := by
  calc tokens.getLast?.bind tokenSpan? = (tokens.map tokenSpan?).getLast?.bind id := by
        rw [List.getLast?_map, Option.bind_map]
        rfl
    _ = spans.getLast? := by
        rw [h, List.getLast?_map, Option.bind_map]
        cases spans.getLast? <;> rfl

/-- Tokens whose spans run forward and follow each other are covered from the start of the first to
the end of the last. -/
theorem exists_hull_of_spans (hne : tokens ≠ []) (h : tokens.map tokenSpan? = spans.map some)
    (hruns : ∀ s ∈ spans, s.Runs) (hpairwise : spans.Pairwise Span.Precedes) :
    ∃ first last, tokens.head?.bind tokenSpan? = some first ∧
      tokens.getLast?.bind tokenSpan? = some last ∧
      hull (tokens.map tokenSpan?) = some ⟨first.start, last.stop⟩ := by
  have hspans : spans ≠ [] := by
    rintro rfl
    exact hne (List.map_eq_nil_iff.1 h)
  have hfirst := List.head?_eq_some_head hspans
  have hlast := List.getLast?_eq_some_getLast hspans
  refine ⟨_, _, (head?_bind_tokenSpan? h).trans hfirst, (getLast?_bind_tokenSpan? h).trans hlast, ?_⟩
  rw [h]
  exact hull_of_pairwise hruns hpairwise hfirst hlast

section Results

variable {p : Parser Token} {text : String} {ev : Evaluation} {more : List (Pull Token Error)}

/-- A text that has a result has tokens on which the run ends in the same way: those that are
shifted and, unless the end of the input is in sight then, one more. -/
theorem exists_tokens_of_eval (h : Calculator.eval ⟨p, alphabet⟩ text = .ok ev) :
    ∃ (tokens : List (Tree Token)) (more : List (Pull Token Error)),
      Calculator.source ⟨p, alphabet⟩ text = tokens.map .token ++ more ∧
      (∀ t ∈ tokens, Lexed t) ∧
      (∀ verdict, (p.parse (Calculator.source ⟨p, alphabet⟩ text)).verdict = verdict →
        p.Ends (Parser.start (tokens.map .token)) ⟨verdict, ev.stats, []⟩) ∧
      (more = [] ∧ tokens.length = ev.stats.shifts ∨ tokens.length = ev.stats.shifts + 1) := by
  obtain ⟨hstats, hverdict⟩ := eval_eq_ok h
  have hstop : Pull.stop ∉ Calculator.source ⟨p, alphabet⟩ text := stop_not_mem_pullsFrom
  generalize hparse : p.parse (Calculator.source ⟨p, alphabet⟩ text) = o at *
  have hunfinished : ∀ stats unread, o ≠ ⟨.unfinished, stats, unread⟩ := by
    rintro stats unread rfl
    rcases hverdict with h | h <;> cases h
  have hfaulted : ∀ error, o.verdict ≠ .faulted error := by
    intro error heq
    rcases hverdict with h | h <;> rw [heq] at h <;> cases h
  obtain ⟨tokens, more, hsource, hends, hcount⟩ :=
    Parser.exists_tokens_of_parse hstop hparse hunfinished hfaulted
  refine ⟨tokens, more, hsource, ?_, ?_, hstats ▸ hcount⟩
  · intro t ht
    have hmem : Pull.token t ∈ Calculator.source ⟨p, alphabet⟩ text := by
      rw [hsource]
      exact List.mem_append_left _ (List.mem_map.2 ⟨t, ht, rfl⟩)
    exact lexed_of_mem_pullsFrom hmem
  · rintro verdict rfl
    rw [← hstats]
    exact hends

/-- The tokens at the beginning of a source are read before any fault. -/
theorem exists_spans_of_source
    (hsource : Calculator.source ⟨p, alphabet⟩ text = tokens.map .token ++ more) :
    ∃ spans : List Span, (tokens ++ leading more).map tokenSpan? = spans.map some ∧
      (∀ s ∈ spans, s.Runs) ∧ spans.Pairwise Span.Precedes := by
  obtain ⟨spans, hspans, hrest⟩ := exists_spans_of_leading alphabet text.toList
  refine ⟨spans, ?_, hrest⟩
  rw [← hspans, ← leading_map_token_append, ← hsource]
  rfl

theorem resultCovers_of_accepted (h : Standard p.grammar)
    (hsource : Calculator.source ⟨p, alphabet⟩ text = tokens.map .token ++ more)
    (hlexed : ∀ t ∈ tokens, Lexed t)
    (hcount : more = [] ∧ tokens.length = ev.stats.shifts ∨ tokens.length = ev.stats.shifts + 1)
    (haccepted : (p.parse (Calculator.source ⟨p, alphabet⟩ text)).verdict = .accepted ev.root)
    (hends : p.Ends (Parser.start (tokens.map (Pull.token : Tree Token → Pull Token Error)))
      ⟨.accepted ev.root, ev.stats, []⟩) :
    ResultCovers ⟨p, alphabet⟩ text ev := by
  obtain ⟨hne, hshifts, hcover⟩ := h.cover_of_accepted hlexed hends
  -- everything in the source has been shifted
  obtain rfl : more = [] := by
    rcases hcount with ⟨hmore, -⟩ | hcount
    · exact hmore
    · omega
  obtain ⟨spans, hspans, hruns, hpairwise⟩ := exists_spans_of_source hsource
  have hnil : leading ([] : List (Pull Token Error)) = [] := rfl
  rw [hnil, List.append_nil] at hspans
  rw [List.append_nil] at hsource
  obtain ⟨first, last, hfirst, hlast, hhull⟩ := exists_hull_of_spans hne hspans hruns hpairwise
  exact .expression haccepted hsource hfirst hlast (hcover.trans hhull)

theorem resultCovers_of_rejected
    (hsource : Calculator.source ⟨p, alphabet⟩ text = tokens.map .token ++ more)
    (hlexed : ∀ t ∈ tokens, Lexed t)
    (hcount : more = [] ∧ tokens.length = ev.stats.shifts ∨ tokens.length = ev.stats.shifts + 1)
    (hrejected : (p.parse (Calculator.source ⟨p, alphabet⟩ text)).verdict = .rejected ev.root)
    (hends : p.Ends (Parser.start (tokens.map (Pull.token : Tree Token → Pull Token Error)))
      ⟨.rejected ev.root, ev.stats, []⟩) :
    ResultCovers ⟨p, alphabet⟩ text ev := by
  have hroot := Standard.item_of_rejected hends
  rw [hroot] at hrejected
  rcases hcount with ⟨rfl, hcount⟩ | hcount
  · have hnone : tokens[ev.stats.shifts]? = none := List.getElem?_eq_none (Nat.le_of_eq hcount)
    rw [hnone, Option.getD_none] at hroot hrejected
    rw [List.append_nil] at hsource
    refine .endOfInput hrejected hsource hcount.symm ?_
    rw [Evaluation.span?, hroot]
    rfl
  · obtain ⟨token, htoken⟩ : ∃ token, tokens[ev.stats.shifts]? = some token :=
      ⟨_, List.getElem?_eq_getElem (by omega)⟩
    have hmem : token ∈ tokens := List.mem_of_getElem? htoken
    obtain ⟨spans, hspans, -⟩ := exists_spans_of_source hsource
    obtain ⟨span, -, hspan⟩ : ∃ span ∈ spans, some span = tokenSpan? token := by
      rw [← List.mem_map, ← hspans]
      exact List.mem_map_of_mem (List.mem_append_left _ hmem)
    obtain ⟨_, hvalue⟩ := (hlexed token hmem).value?_eq
    rw [htoken, Option.getD_some] at hroot hrejected
    refine .offending hrejected ?_ hspan.symm ?_
    · rw [hsource, leading_map_token_append]
      exact List.getElem?_append_left (List.getElem?_eq_some_iff.1 htoken).1 ▸ htoken
    · calc ev.span? = cover (token.withState Tree.errorState) := by
            rw [Evaluation.span?, hroot, cover]
        _ = some span := by
            rw [Tree.withState, cover_withTag, cover_of_isLeaf ⟨_, hvalue⟩, hspan]

end Results

/-- For every text that has a result, the result covers the whole expression if the parse has
accepted, also where an operation has failed; else it covers the offending token, and nothing at the
end of the input. -/
theorem span_covers_expression :
    ∃ c, Calculator.standard = .ok c ∧ ∀ (text : String) (ev : Evaluation),
      c.eval text = .ok ev → ResultCovers c text ev := by
  obtain ⟨p, hp, hstandard, -⟩ := standard_eq
  refine ⟨⟨p, alphabet⟩, hp, fun text ev hev => ?_⟩
  obtain ⟨tokens, more, hsource, hlexed, hends, hcount⟩ := exists_tokens_of_eval hev
  rcases (eval_eq_ok hev).2 with haccepted | hrejected
  · exact resultCovers_of_accepted hstandard hsource hlexed hcount haccepted (hends _ haccepted)
  · exact resultCovers_of_rejected hsource hlexed hcount hrejected (hends _ hrejected)

/-- A sum over two lines is covered from its first number to its last one. -/
theorem span_covers_expression_sum :
    ∃ c ev, Calculator.standard = .ok c ∧ c.eval "1\n+ 2" = .ok ev ∧
      ev.span? = some ⟨⟨0, 0⟩, ⟨1, 3⟩⟩ := by
  obtain ⟨c, hc, hcovers⟩ := span_covers_expression
  obtain ⟨p, hp, hstandard, htrim⟩ := standard_eq
  obtain rfl : c = ⟨p, alphabet⟩ := by
    rw [hp] at hc
    exact (Except.ok.inj hc).symm
  obtain ⟨tokens, htokens, hvalues, hspans⟩ : ∃ tokens : List (Tree Token),
      Calculator.source ⟨p, alphabet⟩ "1\n+ 2" = tokens.map .token ∧
      tokens.map valueOf = [.number 1, .operator '+', .number 2] ∧
      tokens.map tokenSpan? =
        [⟨⟨0, 0⟩, ⟨0, 1⟩⟩, ⟨⟨1, 0⟩, ⟨1, 1⟩⟩, ⟨⟨1, 2⟩, ⟨1, 3⟩⟩].map some :=
    ⟨[_, _, _], rfl, rfl, rfl⟩
  have hsum : Evaluates .sum [.number 1, .operator '+', .number 2] (some 3) :=
    @Evaluates.apply .sum '+' _ [.number 1] [.number 2] (some 1) (some 2) List.mem_cons_self
      (Evaluates.number 1).of_unary (Evaluates.number 2).of_unary
  obtain ⟨ev, hev, hfolds⟩ := eval_of_evaluates hstandard htrim htokens (hvalues ▸ hsum)
  refine ⟨_, ev, hp, hev, ?_⟩
  -- the result holds a number, so it is no rejected token
  have hunmarked : ∀ t : Tree Token, (p.parse (Calculator.source ⟨p, alphabet⟩ "1\n+ 2")).verdict ≠
      .rejected (t.withState Tree.errorState) := by
    intro t hrejected
    rcases (eval_eq_ok hev).2 with haccepted | hrejected'
    · rw [hrejected] at haccepted
      cases haccepted
    · rw [hrejected] at hrejected'
      have herror := hfolds.isError_eq
      rw [← Verdict.rejected.inj hrejected', Tree.isError_withState_errorState] at herror
      cases herror
  cases hcovers _ ev hev with
  | @expression tokens' first last _ hsource hfirst hlast hspan =>
    have hmap := htokens.symm.trans hsource
    rw [List.map_inj_right fun _ _ heq => Pull.token.inj heq] at hmap
    subst hmap
    have hpositions := (head?_bind_tokenSpan? hspans).symm.trans hfirst
    have hpositions' := (getLast?_bind_tokenSpan? hspans).symm.trans hlast
    cases hpositions
    cases hpositions'
    exact hspan
  | offending hrejected => exact absurd hrejected (hunmarked _)
  | endOfInput hrejected => exact absurd hrejected (hunmarked _)

end ShiftReduce.Calc
