import Mathlib.Logic.Relation
import ShiftReduce.Worklist

/-!
# What a worklist finds

A worklist that is read to its end holds exactly the values that can be reached from where it
started.  Reading it to its end takes no more reads than there are values to start from and values
that can be added, so a bound on the latter is a bound on the fuel.

* `Leads`: going from a value to a successor, any number of times;
* `exists_leads_of_mem_explore`: everything on a worklist can be reached;
* `explore_closed`: with enough fuel, the successors of its members are members;
* `mem_explore_iff`: both together.
-/

namespace ShiftReduce

variable {α : Type}

/-- `Leads successors a b` says that `b` is reached from `a` by going from values to successors. -/
def Leads (successors : α → List α) : α → α → Prop :=
  Relation.ReflTransGen fun a b => b ∈ successors a

/-- A property that passes to successors passes along every path. -/
theorem Leads.induct {successors : α → List α} {P : α → Prop} {a b : α}
    (h : Leads successors a b) (start : P a)
    (step : ∀ x y, P x → y ∈ successors x → P y) : P b := by
  induction h with
  | refl => exact start
  | tail _ hxy ih => exact step _ _ ih hxy

theorem closed_of_read {successors : α → List α} {next : Nat} {found : List α}
    (hlen : found.length ≤ next)
    (hread : ∀ i < next, ∀ a, found[i]? = some a → ∀ b ∈ successors a, b ∈ found) :
    ∀ a ∈ found, ∀ b ∈ successors a, b ∈ found := by
  intro a ha
  obtain ⟨i, hi, hget⟩ := List.getElem_of_mem ha
  exact hread i (by omega) a (by rw [List.getElem?_eq_getElem hi, hget])

variable [DecidableEq α] {successors : α → List α}

/-! ## Soundness -/

/-- What a worklist holds after it has been read can be reached from what it held before. -/
theorem exists_leads_of_mem_explore {fuel next : Nat} {found : List α} {b : α}
    (h : b ∈ explore successors fuel found next) : ∃ a ∈ found, Leads successors a b := by
  induction fuel generalizing found next with
  | zero => exact ⟨b, h, .refl⟩
  | succ fuel ih =>
    rw [explore] at h
    split at h
    · exact ⟨b, h, .refl⟩
    · next x hx =>
      obtain ⟨a, ha, hab⟩ := ih h
      rcases mem_appendNew.1 ha with ha | ha
      · exact ⟨a, ha, hab⟩
      · exact ⟨x, List.mem_of_getElem? hx, .head ha hab⟩

/-! ## Room for growth -/

/-- The members of `pool` that are not on the worklist. -/
def missing (pool found : List α) : List α := pool.filter fun a => decide (a ∉ found)

theorem length_missing_append_lt {pool found : List α} {b : α} (hpool : b ∈ pool)
    (hnew : b ∉ found) : (missing pool (found ++ [b])).length < (missing pool found).length := by
  have hsub : missing pool (found ++ [b]) =
      (missing pool found).filter fun a => decide (a ≠ b) := by
    simp only [missing, List.filter_filter]
    apply List.filter_congr
    intro a _
    simp only [List.mem_append, List.mem_singleton, not_or, ne_eq, Bool.decide_and]
    exact Bool.and_comm _ _
  rw [hsub, List.length_filter_lt_length_iff_exists]
  exact ⟨b, by simp [missing, hpool, hnew], by simp⟩

/-- Appending members of `pool` uses up as much room as it adds length. -/
theorem length_appendNew_add_missing_le {pool found new : List α} (h : ∀ b ∈ new, b ∈ pool) :
    (appendNew found new).length + (missing pool (appendNew found new)).length ≤
      found.length + (missing pool found).length := by
  induction new generalizing found with
  | nil => exact Nat.le_refl _
  | cons b bs ih =>
    rw [appendNew_cons]
    refine Nat.le_trans (ih fun c hc => h c (List.mem_cons_of_mem _ hc)) ?_
    split
    · exact Nat.le_refl _
    · next hnew =>
      have := length_missing_append_lt (h b List.mem_cons_self) hnew
      rw [List.length_append, List.length_singleton]
      omega

theorem prefix_appendNew (found new : List α) : found <+: appendNew found new := by
  induction new generalizing found with
  | nil => exact List.prefix_rfl
  | cons b bs ih =>
    rw [appendNew_cons]
    refine List.IsPrefix.trans ?_ (ih _)
    split
    · exact List.prefix_rfl
    · exact List.prefix_append _ _

/-! ## Completeness -/

/-- A worklist that starts inside `P` and grows inside `pool` only is closed under successors once
it has been read with enough fuel.  Everything before `next` is taken to have been read. -/
theorem explore_closed {pool : List α} {P : α → Prop}
    (hstep : ∀ a, P a → ∀ b ∈ successors a, b ∈ pool ∧ P b) {fuel next : Nat} {found : List α}
    (hP : ∀ a ∈ found, P a)
    (hread : ∀ i < next, ∀ a, found[i]? = some a → ∀ b ∈ successors a, b ∈ found)
    (hfuel : found.length + (missing pool found).length ≤ fuel + next) :
    ∀ a ∈ explore successors fuel found next, ∀ b ∈ successors a,
      b ∈ explore successors fuel found next := by
  induction fuel generalizing found next with
  | zero =>
    rw [explore]
    exact closed_of_read (by omega) hread
  | succ fuel ih =>
    rw [explore]
    split
    · next hnone => exact closed_of_read (List.getElem?_eq_none_iff.1 hnone) hread
    · next x hx =>
      have hPx : P x := hP x (List.mem_of_getElem? hx)
      have hroom : (appendNew found (successors x)).length +
          (missing pool (appendNew found (successors x))).length ≤
            found.length + (missing pool found).length :=
        length_appendNew_add_missing_le fun b hb => (hstep x hPx b hb).1
      refine ih ?_ ?_ (by omega)
      · intro a ha
        rcases mem_appendNew.1 ha with ha | ha
        · exact hP a ha
        · exact (hstep x hPx a ha).2
      · intro i hi a ha b hb
        have hlt : next < found.length := (List.getElem?_eq_some_iff.1 hx).1
        have hsame : found[i]? = some a := by
          obtain ⟨rest, hrest⟩ := prefix_appendNew found (successors x)
          rw [← hrest, List.getElem?_append_left (by omega)] at ha
          exact ha
        rcases Nat.lt_succ_iff_lt_or_eq.1 hi with hi | rfl
        · exact mem_appendNew.2 (Or.inl (hread i hi a hsame b hb))
        · rw [hx] at hsame
          cases hsame
          exact mem_appendNew.2 (Or.inr hb)

/-- With fuel for what it starts from and for all that can be added, a worklist finds exactly what
can be reached. -/
theorem mem_explore_iff {pool : List α} {P : α → Prop}
    (hstep : ∀ a, P a → ∀ b ∈ successors a, b ∈ pool ∧ P b) {fuel : Nat} {found : List α}
    (hP : ∀ a ∈ found, P a) (hfuel : found.length + pool.length ≤ fuel) {b : α} :
    b ∈ explore successors fuel found 0 ↔ ∃ a ∈ found, Leads successors a b := by
  constructor
  · exact exists_leads_of_mem_explore
  · rintro ⟨a, ha, hab⟩
    have hroom : (missing pool found).length ≤ pool.length := List.length_filter_le _ _
    have hclosed : ∀ x ∈ explore successors fuel found 0, ∀ y ∈ successors x,
        y ∈ explore successors fuel found 0 :=
      explore_closed hstep hP (fun i hi => absurd hi (Nat.not_lt_zero i)) (by omega)
    exact hab.induct (mem_explore_of_mem ha) fun x y hx hxy => hclosed x hx y hxy

end ShiftReduce
