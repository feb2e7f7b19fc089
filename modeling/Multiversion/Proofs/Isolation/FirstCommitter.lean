import Mathlib.Data.List.Pairwise
import Multiversion.Proofs.Isolation.History

/-!
# First committer wins

Two committed transactions that wrote the same row should have lifetimes apart: one began after the
other had committed.  Conflict detection sees to that, but it lets a writer that missed its deadline be
overwritten, while nothing keeps that writer from committing afterwards.  So lifetimes are apart
exactly if neither of the two overtook the other.

Main statement: `Timeline.apart_iff_not_overtook`.
-/

namespace Multiversion

namespace Timeline

/-- Whether a transaction has successfully written a row. -/
def Wrote (t : Timeline) (id : TxnId) (key : Bytes) : Prop :=
  ∃ w ∈ t.writes, w.writer = id ∧ w.key = key

/-- Whether a transaction wrote a row over an earlier write of another one that had missed its
deadline. -/
def Overtook (t : Timeline) (id other : TxnId) (key : Bytes) : Prop :=
  ∃ w ∈ t.writes, w.writer = id ∧ w.key = key ∧ other ∈ w.overtook

instance (t : Timeline) (id : TxnId) (key : Bytes) : Decidable (t.Wrote id key) :=
  inferInstanceAs (Decidable (∃ w ∈ t.writes, w.writer = id ∧ w.key = key))

instance (t : Timeline) (id other : TxnId) (key : Bytes) : Decidable (t.Overtook id other key) :=
  inferInstanceAs (Decidable (∃ w ∈ t.writes, w.writer = id ∧ w.key = key ∧ other ∈ w.overtook))

variable {t : Timeline}

theorem Orderly.overlap (h : t.Orderly) {u v : View} (hu : t.directory.find? u.id = some u)
    (hv : t.directory.find? v.id = some v) {key : Bytes} (hovertook : t.Overtook u.id v.id key) :
    Overlap u v := by
  obtain ⟨w, hw, hwriter, -, hmem⟩ := hovertook
  obtain ⟨-, u', v', hu', hv', hoverlap⟩ := h.history.overtaken w hw v.id hmem
  rw [hwriter, hu] at hu'
  rw [hv] at hv'
  cases hu'
  cases hv'
  exact hoverlap

/-- Of two writers of a row, the one that wrote later follows the other. -/
theorem Orderly.follows (h : t.Orderly) {a b : TxnId} {key : Bytes} (hne : a ≠ b)
    (ha : t.Wrote a key) (hb : t.Wrote b key) :
    ∃ e f : Write, e ∈ t.writes ∧ f ∈ t.writes ∧ e.writer = a ∧ e.key = key ∧ f.writer = b ∧
      f.key = key ∧ (Follows t.directory e f ∨ Follows t.directory f e) := by
  obtain ⟨e, he, hewriter, hekey⟩ := ha
  obtain ⟨f, hf, hfwriter, hfkey⟩ := hb
  have hpairwise : t.writes.Pairwise fun e f => Follows t.directory e f ∨ Follows t.directory f e :=
    h.history.follows.imp fun hfollows => .inl hfollows
  have hdistinct : e ≠ f := by
    rintro rfl
    exact hne (hewriter.symm.trans hfwriter)
  have : Std.Symm fun e f => Follows t.directory e f ∨ Follows t.directory f e :=
    ⟨fun _ _ hfollows => hfollows.symm⟩
  exact ⟨e, f, he, hf, hewriter, hekey, hfwriter, hfkey, hpairwise.forall he hf hdistinct⟩

/-- A committed writer that follows another one overtook it, or began after its commit. -/
theorem Orderly.apart_of_follows (h : t.Orderly) {u v : View} {c c' : Timestamp} {e f : Write}
    (hu : t.directory.find? u.id = some u) (hv : t.directory.find? v.id = some v)
    (hcommit : u.commit = some c) (hcommit' : v.commit = some c') (hne : u.id ≠ v.id)
    (he : e ∈ t.writes) (hewriter : e.writer = u.id) (hfwriter : f.writer = v.id)
    (hkey : e.key = f.key) (hfollows : Follows t.directory e f) :
    t.Overtook u.id v.id f.key ∨ c' ≤ u.begin := by
  have hdone := h.stamped.done hu hcommit
  have hdone' := h.stamped.done hv hcommit'
  have hbegin : v.begin < .latest := Timestamp.lt_of_lt_of_le hdone'.2.1 (Timestamp.le_latest _)
  rcases hfollows hkey (by rwa [hewriter, hfwriter]) (hewriter ▸ hu) (hfwriter ▸ hv)
    (by simp [hdone.1]) (by simp [hdone'.1]) hbegin with hovertook | ⟨-, ts, hts, hle⟩
  · exact .inl ⟨e, he, hewriter, hkey, hfwriter ▸ hovertook⟩
  · cases hts.symm.trans hcommit'
    exact .inr hle

/-- **First committer wins, unless deadlines are missed.**  On every run of plain top-level transactions
with ever higher timestamps, two committed writers of a row have lifetimes apart exactly if neither of
them overtook the other. -/
theorem apart_iff_not_overtook (hfresh : t.IsFresh) {steps : List Step}
    (hsteps : t.Admits Permits steps) {u v : View} {c c' : Timestamp} {key : Bytes}
    (hu : (t.run steps).directory.find? u.id = some u)
    (hv : (t.run steps).directory.find? v.id = some v) (hne : u.id ≠ v.id)
    (hcommit : u.commit = some c) (hcommit' : v.commit = some c')
    (hwrote : (t.run steps).Wrote u.id key) (hwrote' : (t.run steps).Wrote v.id key) :
    (c ≤ v.begin ∨ c' ≤ u.begin) ↔
      ¬ (t.run steps).Overtook u.id v.id key ∧ ¬ (t.run steps).Overtook v.id u.id key := by
  have h := orderly_run hfresh.orderly hsteps
  generalize t.run steps = t at h hu hv hwrote hwrote' ⊢
  constructor
  · intro hapart
    have hnot : ∀ {u v : View} {c c' : Timestamp}, Overlap u v → u.commit = some c →
        v.commit = some c' → ¬ (c ≤ v.begin ∨ c' ≤ u.begin) := by
      rintro u v c c' ⟨hends, hends'⟩ hc hc' (hle | hle)
      · exact Timestamp.not_lt.2 hle (hends c hc)
      · exact Timestamp.not_lt.2 hle (hends' c' hc')
    exact ⟨fun hovertook => hnot (h.overlap hu hv hovertook) hcommit hcommit' hapart,
      fun hovertook => hnot (h.overlap hv hu hovertook) hcommit' hcommit hapart.symm⟩
  · rintro ⟨hnot, hnot'⟩
    obtain ⟨e, f, he, hf, hewriter, hekey, hfwriter, hfkey, hfollows | hfollows⟩ :=
      h.follows hne hwrote hwrote'
    · rcases h.apart_of_follows hu hv hcommit hcommit' hne he hewriter hfwriter
        (hekey.trans hfkey.symm) hfollows with hovertook | hle
      · exact absurd (hfkey ▸ hovertook) hnot
      · exact .inr hle
    · rcases h.apart_of_follows hv hu hcommit' hcommit hne.symm hf hfwriter hewriter
        (hfkey.trans hekey.symm) hfollows with hovertook | hle
      · exact absurd (hekey ▸ hovertook) hnot'
      · exact .inl hle

end Timeline

namespace LateCommit

/-- An engine with an empty store and a deadline of ten milliseconds. -/
def timeline : Timeline where
  engine := { store := .single (.empty { timeout := 10 }) }

/-- Two transactions begin; the second overtakes the first after its deadline, and both commit. -/
def steps : List Step :=
  [.begin { id := ⟨1⟩, begin := ⟨1⟩ },
    .begin { id := ⟨2⟩, begin := ⟨2⟩ },
    .applyBatch { name := "rows" } false { id := ⟨1⟩, begin := ⟨1⟩ }
      [{ kind := .upsert, key := [1], value := [1] }],
    .advance 11,
    .applyBatch { name := "rows" } false { id := ⟨2⟩, begin := ⟨2⟩ }
      [{ kind := .upsert, key := [1], value := [2] }],
    .commit ⟨2⟩ ⟨3⟩,
    .commit ⟨1⟩ ⟨4⟩]

/-- The transaction that is overtaken. -/
def first : View := { id := ⟨1⟩, begin := ⟨1⟩, commit := some ⟨4⟩, phase := .committed }

/-- The transaction that overtakes it. -/
def second : View := { id := ⟨2⟩, begin := ⟨2⟩, commit := some ⟨3⟩, phase := .committed }

theorem isFresh : timeline.IsFresh := ⟨Engine.isFresh_of_empty { timeout := 10 } {} true none, rfl⟩

theorem admits : timeline.Admits Timeline.Permits steps := by
  refine ⟨Timeline.permits_of_change rfl ⟨rfl, rfl, ?_⟩, Timeline.permits_of_change rfl ⟨rfl, rfl, ?_⟩,
    Timeline.permits_applyBatch ?_ _ _ _, Timeline.permits_advance _ _,
    Timeline.permits_applyBatch ?_ _ _ _, Timeline.permits_of_change rfl ?_,
    Timeline.permits_of_change rfl ?_, trivial⟩
  · decide
  · decide
  · decide +kernel
  · decide +kernel
  · show Timestamp.mk 2 < ⟨3⟩
    decide
  · show Timestamp.mk 3 < ⟨4⟩
    decide

end LateCommit

/-- The exact condition, where a transaction is overtaken and commits all the same. -/
theorem apart_iff_not_overtook_lateCommit :
    ((⟨4⟩ : Timestamp) ≤ LateCommit.second.begin ∨ (⟨3⟩ : Timestamp) ≤ LateCommit.first.begin) ↔
      ¬ (LateCommit.timeline.run LateCommit.steps).Overtook ⟨1⟩ ⟨2⟩ [1] ∧
        ¬ (LateCommit.timeline.run LateCommit.steps).Overtook ⟨2⟩ ⟨1⟩ [1] :=
  Timeline.apart_iff_not_overtook (u := LateCommit.first) (v := LateCommit.second)
    LateCommit.isFresh LateCommit.admits (by decide +kernel) (by decide +kernel) (by decide) rfl rfl
    (by decide +kernel) (by decide +kernel)

/-- **The first committer does not always win**: a transaction that missed its deadline, and was
overwritten for it, may commit after the transaction that overwrote it. -/
theorem not_apart_of_permitted :
    ¬ ∀ (t : Timeline) (steps : List Step) (u v : View) (c c' : Timestamp) (key : Bytes),
      t.IsFresh → t.Admits Timeline.Permits steps →
      (t.run steps).directory.find? u.id = some u → (t.run steps).directory.find? v.id = some v →
      u.id ≠ v.id → u.commit = some c → v.commit = some c' → (t.run steps).Wrote u.id key →
      (t.run steps).Wrote v.id key → c ≤ v.begin ∨ c' ≤ u.begin := by
  intro h
  have hapart := h LateCommit.timeline LateCommit.steps LateCommit.first LateCommit.second ⟨4⟩ ⟨3⟩ [1]
    LateCommit.isFresh LateCommit.admits (by decide +kernel) (by decide +kernel) (by decide) rfl rfl
    (by decide +kernel) (by decide +kernel)
  revert hapart
  decide

end Multiversion
