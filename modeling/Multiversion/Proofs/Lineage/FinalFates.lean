import Multiversion.Proofs.Lineage.Rising
import Multiversion.Proofs.Visibility.HandOffs

/-!
# Final fates

Once a writer's fate is decided, to the bottom of its lineage or to the top, later records say the same of
it.  They may say it sooner, at a timestamp that has been cached meanwhile; so a walk is compared with the
walk over later records element by element.

* `Directory.Retains` — later records, on which nothing that was cached is lost;
* `Fate.ConfirmedBy` — an answer that says the same as a fate, if that is decided;
* `TxnStore.retains_submit` — requests lose nothing that was cached.

Main statement: `Lineage.confirmed_of_resolveWriter` — what a lineage finds of a writer is confirmed by all
later records, wherever on the writer's lineage timestamps have been cached in between.
-/

namespace Multiversion

/-- Later records, on which nothing that was cached is lost. -/
def Directory.Retains (d d' : Directory) : Prop :=
  ∀ id v, d.find? id = some v → ∃ v', d'.find? id = some v' ∧ v.Evolves v' ∧
    ∀ g, v.globalCommit = some g → v'.globalCommit = some g

/-- An answer that says the same as a fate, if the fate is decided; it may have been found in another
way. -/
def Fate.ConfirmedBy (answer : Except TxnError Fate) : Fate → Prop
  | .rolledBack => answer = .ok .rolledBack
  | .committed commit _ => ∃ viaParents, answer = .ok (.committed commit viaParents)
  | _ => True

namespace Directory.Retains

variable {d d' d'' : Directory}

theorem of_find?_eq (h : ∀ id, d'.find? id = d.find? id) : d.Retains d' := by
  intro id v hfind
  exact ⟨v, (h id).trans hfind, .refl v, fun _ hg => hg⟩

theorem refl (d : Directory) : d.Retains d := of_find?_eq fun _ => rfl

theorem trans (h : d.Retains d') (h' : d'.Retains d'') : d.Retains d'' := by
  intro id v hfind
  obtain ⟨v', hfind', hevolves, hcached⟩ := h id v hfind
  obtain ⟨v'', hfind'', hevolves', hcached'⟩ := h' id v' hfind'
  exact ⟨v'', hfind'', hevolves.trans hevolves', fun g hg => hcached' g (hcached g hg)⟩

theorem later (h : d.Retains d') : d.Later d' := by
  intro id v hfind
  obtain ⟨v', hfind', hevolves, -⟩ := h id v hfind
  exact ⟨v', hfind', hevolves⟩

end Directory.Retains

/-- An accepted request never overwrites a cached timestamp. -/
theorem Change.Accepted.retains {now : Millis} {change : Change} {e e' : Entry}
    (h : Change.Accepted now change (some e) e') {g : Timestamp} (hg : e.view.globalCommit = some g) :
    e'.view.globalCommit = some g := by
  cases h with
  | commit | rollback | keepAlive => exact hg
  | globalCommit _ hnone => simp [hnone] at hg

namespace TxnStore

/-- **Requests lose nothing that was cached.** -/
theorem retains_submit (t : TxnStore) (now now' : Millis) (change : Change) :
    (t.directory now).Retains ((t.submit now change).2.directory now') := by
  rcases t.directory_submit now now' change with hsame | ⟨old, e, haccepted, hold, hnew, hothers⟩
  · exact .of_find?_eq hsame
  · intro id v hfind
    by_cases hid : id = change.txn
    · subst hid
      obtain ⟨entry, rfl, rfl⟩ := Option.map_eq_some_iff.1 (hold.symm.trans hfind)
      exact ⟨e.view, hnew, haccepted.evolves, fun g hg => haccepted.retains hg⟩
    · exact ⟨v, (hothers id hid).trans hfind, .refl v, fun _ hg => hg⟩

end TxnStore

/-- Work that is committed to the root is not gone. -/
theorem CommittedAt.not_fallen {d : Directory} (hd : d.Sound) {id : TxnId} {ts : Timestamp}
    (h : CommittedAt d id ts) : ¬ Fallen d id := by
  intro hfallen
  obtain ⟨a, v, hascends, hfind, hphase⟩ := hfallen.doomed
  have hcommitted := h.committed_of_ascends hd hascends hfind
  simp [hphase] at hcommitted

namespace Lineage

variable {d d' : Directory} {l : Lineage} {writer : TxnId} {room : Nat} {below : Option Timestamp}

/-- What a walk has found is confirmed by a timestamp that is cached on its first element later on. -/
theorem confirmed_of_cached (hd : d.Sound) (hd' : d'.Sound) (hlater : d.Later d') {v v' : View} {f : Fate}
    (hv : d.find? v.id = some v) (h : l.walk d writer room below v = .ok f)
    (hv' : d'.find? v.id = some v') {g : Timestamp} (hg : v'.globalCommit = some g) :
    f.ConfirmedBy (.ok (.committed g false)) := by
  obtain ⟨us, hpath, hroot⟩ := hd'.cached hv' hg
  have hcommitted : CommittedAt d' v.id g := ⟨v', us, hv', hpath, hroot⟩
  cases f with
  | own | committedInto | active => exact trivial
  | committed c via =>
      have hc : CommittedAt d v.id c := holds_of_walk hd hv h
      rw [(hc.later hlater).unique hcommitted]
      exact ⟨false, rfl⟩
  | rolledBack => exact absurd ((fallen_of_walk hd hv h).later hlater) (hcommitted.not_fallen hd')

/-- **A walk over later records** ends where it ended, or at a timestamp that says the same. -/
theorem confirmed_of_walk (hd : d.Sound) (hd' : d'.Sound) (hretains : d.Retains d') {v v' : View}
    {f : Fate} (hv : d.find? v.id = some v) (h : l.walk d writer room below v = .ok f)
    (hv' : d'.find? v.id = some v') : f.ConfirmedBy (l.walk d' writer room below v') := by
  obtain ⟨w, hw, hevolves, hkept⟩ := hretains _ _ hv
  cases hv'.symm.trans hw
  -- Where the later walk finds a timestamp that the earlier one did not, it ends there.
  have hcached : ∀ g, v'.globalCommit = some g → f.ConfirmedBy (.ok (.committed g false)) :=
    fun g hg => confirmed_of_cached hd hd' hretains.later hv h hv' hg
  fun_induction walk l d writer room below v generalizing v' with
  | case1 =>
      cases h
      exact trivial
  | case2 room below v hgo hphase =>
      cases h
      rw [← hevolves.id] at hgo
      unfold walk
      simp [hgo, hevolves.rolledBack hphase, Fate.ConfirmedBy]
  | case3 =>
      cases h
      exact trivial
  | case4 room below v hgo hphase root hroot =>
      cases h
      rw [← hevolves.id] at hgo
      unfold walk
      simp [hgo, hevolves.committed hphase, hkept root hroot, Fate.ConfirmedBy]
  | case5 => cases h
  | case6 room below v hgo hphase commit hparent hcommit hnone =>
      rw [← hevolves.id] at hgo
      unfold walk
      cases hg : v'.globalCommit with
      | some g => simpa [hgo, hevolves.committed hphase, hg] using hcached g hg
      | none =>
          cases h
          simp [hgo, hevolves.committed hphase, hevolves.commit hphase, hcommit,
            hevolves.parent.trans hparent, Fate.ConfirmedBy]
  | case7 => cases h
  | case8 => cases h
  | case9 below v hgo hphase commit parent hparent hcommit hnone room u hget ih =>
      have hfind := Directory.get_eq_ok_iff.1 hget
      have hkeyed : u.id = parent := hd.keyed hfind
      obtain ⟨u', hu', hevolves', hkept'⟩ := hretains _ _ hfind
      subst hkeyed
      rw [← hevolves.id] at hgo
      unfold walk
      cases hg : v'.globalCommit with
      | some g => simpa [hgo, hevolves.committed hphase, hg] using hcached g hg
      | none =>
          have hrest := ih hfind h hu' hu' hevolves' hkept' fun g hg =>
            confirmed_of_cached hd hd' hretains.later hfind h hu' hg
          simpa [hgo, hevolves.committed hphase, hg, hevolves.commit hphase, hcommit,
            hevolves.parent.trans hparent, Directory.get_eq_ok_iff.2 hu'] using hrest

/-- **Decided fates never change**: what a lineage finds of a writer is confirmed by all later records. -/
theorem confirmed_of_resolveWriter (hd : d.Sound) (hd' : d'.Sound) (hretains : d.Retains d') {f : Fate}
    (h : l.resolveWriter d writer = .ok f) : f.ConfirmedBy (l.resolveWriter d' writer) := by
  unfold resolveWriter at h ⊢
  split at h
  · cases h
    exact trivial
  · rename_i hforeign
    split at h
    · cases h
    · rename_i v hget
      have hfind := Directory.get_eq_ok_iff.1 hget
      have hkeyed : v.id = writer := hd.keyed hfind
      obtain ⟨v', hfind', -⟩ := hretains _ _ hfind
      rw [if_neg hforeign, Directory.get_eq_ok_iff.2 hfind']
      subst hkeyed
      exact confirmed_of_walk hd hd' hretains hfind h hfind'

/-- What has been confirmed once is confirmed from then on. -/
theorem confirmed_of_confirmed (hd : d.Sound) (hd' : d'.Sound) (hretains : d.Retains d') {f : Fate}
    (h : f.ConfirmedBy (l.resolveWriter d writer)) : f.ConfirmedBy (l.resolveWriter d' writer) := by
  cases f with
  | own | committedInto | active => exact trivial
  | committed c via =>
      obtain ⟨via', hresolve⟩ := h
      show Fate.ConfirmedBy _ (.committed c via')
      exact confirmed_of_resolveWriter hd hd' hretains hresolve
  | rolledBack => exact confirmed_of_resolveWriter hd hd' hretains h

end Lineage

end Multiversion
