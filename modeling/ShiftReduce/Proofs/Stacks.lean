import Mathlib.Algebra.Order.Ring.Nat
import Mathlib.Data.List.Perm.Subperm
import Mathlib.Logic.Relation

/-!
# Stacks that stop changing

A stack of states changes deterministically, each time by popping some states and pushing one.  What
is pushed depends only on the state on top and on what is laid bare, so the changes above a place in
the stack depend on the state there and on nothing below.  A state that came up again above itself
would therefore do so for ever.  When the stack stops changing at some time, this bounds its height,
and as no stack comes up twice it bounds the number of changes as well.

* `StopsIn`, `Settles`: the number of changes until there is none, and that there is one;
* `Local`: changes depend only on what they lay bare;
* `Grows`: changes that leave alone what is below;
* `Tower`: the states that have piled up on what is left of the first stack, none of them twice;
* `StopsIn.lt_pow`: fewer changes than stacks of the greatest height.
-/

namespace ShiftReduce

variable {f : List Nat → Option (List Nat)}

/-! ## Stopping -/

/-- From this stack there are so many changes until there is none. -/
inductive StopsIn (f : List Nat → Option (List Nat)) : Nat → List Nat → Prop
  | here {σ : List Nat} (h : f σ = none) : StopsIn f 0 σ
  | next {n : Nat} {σ τ : List Nat} (h : f σ = some τ) (hτ : StopsIn f n τ) :
    StopsIn f (n + 1) σ

/-- Any number of changes. -/
def Changes (f : List Nat → Option (List Nat)) : List Nat → List Nat → Prop :=
  Relation.ReflTransGen fun σ τ => f σ = some τ

theorem StopsIn.unique {n m : Nat} {σ : List Nat} (hn : StopsIn f n σ) (hm : StopsIn f m σ) :
    n = m := by
  induction hn generalizing m with
  | here h =>
    cases hm with
    | here => rfl
    | next h' _ =>
      rw [h] at h'
      cases h'
  | next h _ ih =>
    cases hm with
    | here h' =>
      rw [h] at h'
      cases h'
    | next h' hm =>
      rw [h] at h'
      cases h'
      rw [ih hm]

theorem StopsIn.pred {n : Nat} {σ τ : List Nat} (hn : StopsIn f n σ) (h : f σ = some τ) :
    ∃ m < n, StopsIn f m τ := by
  cases hn with
  | here h' =>
    rw [h'] at h
    cases h
  | @next n _ _ h' hτ =>
    rw [h'] at h
    cases h
    exact ⟨n, Nat.lt_succ_self n, hτ⟩

theorem StopsIn.of_changes {n : Nat} {σ τ : List Nat} (hn : StopsIn f n σ) (h : Changes f σ τ) :
    ∃ m ≤ n, StopsIn f m τ := by
  induction h with
  | refl => exact ⟨n, Nat.le_refl n, hn⟩
  | tail _ hstep ih =>
    obtain ⟨m, hm, hstops⟩ := ih
    obtain ⟨k, hk, hstops'⟩ := hstops.pred hstep
    exact ⟨k, by omega, hstops'⟩

/-- The changes from this stack come to an end. -/
def Settles (f : List Nat → Option (List Nat)) (σ : List Nat) : Prop := ∃ n, StopsIn f n σ

theorem Settles.of_changes {σ τ : List Nat} (h : Changes f σ τ) (hτ : Settles f τ) :
    Settles f σ := by
  induction h using Relation.ReflTransGen.head_induction_on with
  | refl => exact hτ
  | head hstep _ ih =>
    obtain ⟨n, hn⟩ := ih
    exact ⟨n + 1, .next hstep hn⟩

/-- A stack that settles does not come up again. -/
theorem Settles.not_transGen_self {σ : List Nat} (hσ : Settles f σ) :
    ¬ Relation.TransGen (fun σ τ => f σ = some τ) σ σ := by
  intro h
  obtain ⟨n, hn⟩ := hσ
  obtain ⟨τ, hstep, hchanges⟩ := Relation.TransGen.head'_iff.1 h
  obtain ⟨m, hm, hstops⟩ := hn.pred hstep
  obtain ⟨k, hk, hagain⟩ := hstops.of_changes hchanges
  have hsame := hn.unique hagain
  omega

/-- The stacks that come up are all different. -/
theorem StopsIn.exists_trail {n : Nat} {σ : List Nat} (hn : StopsIn f n σ) :
    ∃ trail : List (List Nat), trail.length = n + 1 ∧ trail.Nodup ∧
      ∀ τ ∈ trail, Changes f σ τ ∧ ∃ m ≤ n, StopsIn f m τ := by
  induction hn with
  | @here σ h =>
    refine ⟨[σ], rfl, by simp, ?_⟩
    intro τ hτ
    rw [List.mem_singleton] at hτ
    rw [hτ]
    exact ⟨.refl, 0, Nat.le_refl 0, .here h⟩
  | @next n σ ρ h hρ ih =>
    obtain ⟨trail, hlength, hnodup, htrail⟩ := ih
    refine ⟨σ :: trail, by simp [hlength], List.nodup_cons.2 ⟨?_, hnodup⟩, ?_⟩
    · intro hσ
      obtain ⟨-, m, hm, hstops⟩ := htrail σ hσ
      have := hstops.unique (.next h hρ)
      omega
    · intro τ hτ
      rcases List.mem_cons.1 hτ with rfl | hτ
      · exact ⟨.refl, n + 1, Nat.le_refl _, .next h hρ⟩
      · obtain ⟨hchanges, m, hm, hstops⟩ := htrail τ hτ
        exact ⟨hchanges.head h, m, by omega, hstops⟩

/-! ## Changes above a place in the stack -/

/-- A change pops some states and pushes one of `count` states, and if it leaves a state alone it
would do the same above that state in any other stack. -/
structure Local (f : List Nat → Option (List Nat)) (count : Nat) : Prop where
  pushes : ∀ σ τ, f σ = some τ → ∃ a < count, ∃ n, τ = a :: σ.drop n
  above : ∀ u s ρ τ, f (u ++ s :: ρ) = some τ → (s :: ρ) <:+ τ.tail →
    ∃ a v, τ = a :: v ++ s :: ρ ∧ ∀ ρ', f (u ++ s :: ρ') = some (a :: v ++ s :: ρ')

/-- Changes after which `σ` still lies below the top. -/
inductive Grows (f : List Nat → Option (List Nat)) (σ : List Nat) : List Nat → Prop
  | refl : Grows f σ σ
  | step {τ τ' : List Nat} (h : Grows f σ τ) (hstep : f τ = some τ') (hbelow : σ <:+ τ'.tail) :
    Grows f σ τ'

theorem Grows.changes {σ τ : List Nat} (h : Grows f σ τ) : Changes f σ τ := by
  induction h with
  | refl => exact .refl
  | step _ hstep _ ih => exact ih.tail hstep

variable {count : Nat}

/-- What grows above a state grows above it in any other stack. -/
theorem Local.grows (hf : Local f count) {s : Nat} {ρ τ : List Nat} (h : Grows f (s :: ρ) τ) :
    ∃ u, τ = u ++ s :: ρ ∧ ∀ ρ', Grows f (s :: ρ') (u ++ s :: ρ') := by
  induction h with
  | refl => exact ⟨[], rfl, fun _ => .refl⟩
  | step _ hstep hbelow ih =>
    obtain ⟨u, rfl, hgrows⟩ := ih
    obtain ⟨a, v, rfl, habove⟩ := hf.above u s ρ _ hstep hbelow
    exact ⟨a :: v, rfl, fun ρ' => (hgrows ρ').step (habove ρ') (List.suffix_append _ _)⟩

/-- A state that comes up again above itself does so for ever. -/
theorem Local.not_stopsIn (hf : Local f count) {s : Nat} {ρ τ τ' : List Nat}
    (h : Grows f (s :: ρ) τ) (hstep : f τ = some (s :: τ')) (hbelow : (s :: ρ) <:+ τ') :
    ∀ n ρ', ¬ StopsIn f n (s :: ρ') := by
  obtain ⟨u, rfl, hgrows⟩ := hf.grows h
  obtain ⟨a, v, heq, habove⟩ := hf.above u s ρ _ hstep hbelow
  have ha : s = a := (List.cons.inj heq).1
  intro n
  induction n using Nat.strongRecOn with
  | _ n ih =>
    intro ρ' hstops
    obtain ⟨m, hm, hstops'⟩ := hstops.of_changes (hgrows ρ').changes
    obtain ⟨k, hk, hagain⟩ := hstops'.pred (habove ρ')
    rw [← ha] at hagain
    exact ih k (by omega) _ hagain

/-- The states that have piled up on `ρ`: none of them twice, and each with all that grew above
it. -/
inductive Tower (f : List Nat → Option (List Nat)) (ρ : List Nat) : List Nat → Prop
  | nil : Tower f ρ []
  | cons {a : Nat} {w : List Nat} (h : Tower f ρ w) (hnew : a ∉ w)
    (hgrows : ∀ s v, (s :: v) <:+ w → Grows f (s :: v ++ ρ) (a :: w ++ ρ)) : Tower f ρ (a :: w)

namespace Tower

variable {ρ w : List Nat}

theorem nodup (h : Tower f ρ w) : w.Nodup := by
  induction h with
  | nil => exact List.nodup_nil
  | cons _ hnew _ ih => exact List.nodup_cons.2 ⟨hnew, ih⟩

theorem drop (h : Tower f ρ w) (n : Nat) : Tower f ρ (w.drop n) := by
  induction h generalizing n with
  | nil =>
    rw [List.drop_nil]
    exact .nil
  | cons h hnew hgrows ih =>
    cases n with
    | zero => exact .cons h hnew hgrows
    | succ n => exact ih n

theorem grows (h : Tower f ρ w) {s : Nat} {v : List Nat} (hv : (s :: v) <:+ w) :
    Grows f (s :: v ++ ρ) (w ++ ρ) := by
  cases h with
  | nil => exact absurd (List.suffix_nil.1 hv) (List.cons_ne_nil s v)
  | cons _ _ hgrows =>
    rcases List.suffix_cons_iff.1 hv with heq | hv
    · rw [heq]
      exact .refl
    · exact hgrows s v hv

/-- A change builds on the tower or takes it down and begins a new one. -/
theorem step (hf : Local f count) (h : Tower f ρ w) {τ : List Nat} {n : Nat}
    (hstep : f (w ++ ρ) = some τ) (hstops : StopsIn f n τ) :
    ∃ w' ρ', τ = w' ++ ρ' ∧ Tower f ρ' w' ∧ ρ'.length ≤ ρ.length := by
  obtain ⟨a, -, k, rfl⟩ := hf.pushes _ _ hstep
  rw [List.drop_append] at hstep hstops ⊢
  by_cases hk : k ≤ w.length
  · have hzero : k - w.length = 0 := Nat.sub_eq_zero_of_le hk
    rw [hzero, List.drop_zero] at hstep hstops ⊢
    have hsuffix : ∀ s v, (s :: v) <:+ w.drop k → Grows f (s :: v ++ ρ) (w ++ ρ) ∧
        (s :: v ++ ρ) <:+ w.drop k ++ ρ := by
      intro s v hv
      refine ⟨h.grows (hv.trans (List.drop_suffix k w)), ?_⟩
      obtain ⟨u, hu⟩ := hv
      exact ⟨u, by rw [← hu, List.append_assoc]⟩
    refine ⟨a :: w.drop k, ρ, rfl, .cons (h.drop k) ?_ ?_, Nat.le_refl _⟩
    · intro hmem
      obtain ⟨u, v, huv⟩ := List.append_of_mem hmem
      obtain ⟨hgrows, hbelow⟩ := hsuffix a v ⟨u, huv.symm⟩
      exact hf.not_stopsIn hgrows hstep hbelow n _ hstops
    · intro s v hv
      obtain ⟨hgrows, hbelow⟩ := hsuffix s v hv
      exact hgrows.step hstep hbelow
  · have hnil : w.drop k = [] := List.drop_eq_nil_of_le (by omega)
    rw [hnil, List.nil_append]
    refine ⟨[a], ρ.drop (k - w.length), rfl, .cons .nil List.not_mem_nil ?_, ?_⟩
    · intro s v hv
      exact absurd (List.suffix_nil.1 hv) (List.cons_ne_nil s v)
    · rw [List.length_drop]
      omega

end Tower

/-! ## Counting stacks -/

/-- All stacks of at most this height of the states below `count`. -/
def allStacks (count : Nat) : Nat → List (List Nat)
  | 0 => [[]]
  | height + 1 => [] :: (List.range count).flatMap fun q => (allStacks count height).map (q :: ·)

theorem mem_allStacks {height : Nat} {σ : List Nat} (hlength : σ.length ≤ height)
    (hlt : ∀ q ∈ σ, q < count) : σ ∈ allStacks count height := by
  induction height generalizing σ with
  | zero =>
    have hnil : σ = [] := List.length_eq_zero_iff.1 (Nat.le_zero.1 hlength)
    simp [allStacks, hnil]
  | succ height ih =>
    cases σ with
    | nil => exact List.mem_cons_self
    | cons q σ =>
      have hσ : σ ∈ allStacks count height :=
        ih (Nat.le_of_succ_le_succ hlength) fun r hr => hlt r (List.mem_cons_of_mem _ hr)
      refine List.mem_cons_of_mem _ (List.mem_flatMap.2 ⟨q, ?_, List.mem_map.2 ⟨σ, hσ, rfl⟩⟩)
      exact List.mem_range.2 (hlt q List.mem_cons_self)

theorem length_allStacks_le (count height : Nat) :
    (allStacks count height).length ≤ (count + 1) ^ height := by
  induction height with
  | zero => simp [allStacks]
  | succ height ih =>
    have hlength : (allStacks count (height + 1)).length =
        count * (allStacks count height).length + 1 := by
      simp [allStacks, List.length_flatMap]
    have hone : 1 ≤ (count + 1) ^ height := Nat.one_le_pow _ _ (Nat.succ_pos count)
    have hmul := Nat.mul_le_mul_left count ih
    have hpow : (count + 1) ^ (height + 1) =
        count * (count + 1) ^ height + (count + 1) ^ height := by
      rw [Nat.pow_succ, Nat.mul_add, Nat.mul_one, Nat.mul_comm]
    omega

/-- While it has not stopped changing, a stack is at most as much higher than at first as there are
states. -/
theorem StopsIn.length_le (hf : Local f count) {n : Nat} {σ τ : List Nat} (hn : StopsIn f n σ)
    (hσ : ∀ q ∈ σ, q < count) (h : Changes f σ τ) :
    (∀ q ∈ τ, q < count) ∧ τ.length ≤ σ.length + count := by
  have htower : (∀ q ∈ τ, q < count) ∧
      ∃ w ρ, τ = w ++ ρ ∧ Tower f ρ w ∧ ρ.length ≤ σ.length := by
    induction h with
    | refl => exact ⟨hσ, [], σ, rfl, .nil, Nat.le_refl _⟩
    | @tail τ τ' hchanges hstep ih =>
      obtain ⟨hτ, w, ρ, rfl, htower, hle⟩ := ih
      obtain ⟨m, -, hstops⟩ := hn.of_changes (hchanges.tail hstep)
      obtain ⟨w', ρ', rfl, htower', hle'⟩ := htower.step hf hstep hstops
      refine ⟨?_, w', ρ', rfl, htower', Nat.le_trans hle' hle⟩
      obtain ⟨a, ha, k, heq⟩ := hf.pushes _ _ hstep
      rw [heq]
      intro q hq
      rcases List.mem_cons.1 hq with rfl | hq
      · exact ha
      · exact hτ q (List.mem_of_mem_drop hq)
  obtain ⟨hτ, w, ρ, rfl, htower, hle⟩ := htower
  have hw : w.length ≤ count := by
    have hsub : w ⊆ List.range count := fun q hq =>
      List.mem_range.2 (hτ q (List.mem_append_left _ hq))
    simpa using (List.subperm_of_subset htower.nodup hsub).length_le
  refine ⟨hτ, ?_⟩
  rw [List.length_append]
  omega

/-- There are fewer changes than stacks that can come up. -/
theorem StopsIn.lt_pow (hf : Local f count) {n : Nat} {σ : List Nat} (hn : StopsIn f n σ)
    (hσ : ∀ q ∈ σ, q < count) : n < (count + 1) ^ (σ.length + count) := by
  obtain ⟨trail, hlength, hnodup, htrail⟩ := hn.exists_trail
  have hsub : trail ⊆ allStacks count (σ.length + count) := fun τ hτ => by
    obtain ⟨hlt, hle⟩ := hn.length_le hf hσ (htrail τ hτ).1
    exact mem_allStacks hle hlt
  have hle := (List.subperm_of_subset hnodup hsub).length_le
  have hcount := length_allStacks_le count (σ.length + count)
  omega

end ShiftReduce
