/-
# Lotbook.Proofs.Runs -- what holds throughout a session

Every reachable ledger is sound, and what the journal of a session has under a key is faithful to the
ledger that the session began with, however long the session goes on (`Session.Run.tracks`).
-/
import Lotbook.Proofs.EditSteps
import Lotbook.Proofs.Operations

namespace Lotbook

/-- An edit in a session changes its ledger by elementary changes, noted or not. -/
theorem Session.perform_changed {s s₁ : Session} (hs : s.ledger.Sound) {edit : Edit}
    {refusal : Option Failure} (hedit : s.perform edit = .ok (refusal, s₁)) :
    s.ledger.Changed s₁.ledger := by
  have hsteps : Steps True (.account ⟨0⟩) s s₁ :=
    perform_steps hs hedit _ (fun h => by cases h) fun _ => trivial
  exact hsteps.changed

/-- Every reachable ledger is sound. -/
theorem Ledger.Reachable.sound {l : Ledger} (h : l.Reachable) : l.Sound := by
  induction h with
  | new settings => exact sound_new settings
  | edit _ hedit ih => exact (ih.perform_changed hedit).sound ih
  | session _ hedit ih => exact (Session.perform_changed ih hedit).sound ih

namespace Session

/-- Whether some matching in a run overlooks the lot under a key. -/
inductive Slips (key : EntityKey) : Session → List Edit → Prop
  | now {s : Session} {edit : Edit} {edits : List Edit} (h : s.Overlooks edit key) :
      Slips key s (edit :: edits)
  | later {s s₁ : Session} {edit : Edit} {edits : List Edit} {refusal : Option Failure}
      (hedit : s.perform edit = .ok (refusal, s₁)) (h : Slips key s₁ edits) :
      Slips key s (edit :: edits)

theorem not_slips {key : EntityKey} (hkey : key.kind ≠ .lot) {s : Session} {edits : List Edit} :
    ¬ Slips key s edits := by
  intro h
  induction h with
  | now h =>
    obtain ⟨_, rfl, -⟩ := h
    exact hkey rfl
  | later _ _ ih => exact ih

/-- What there is under a key of a session that began with a ledger: the record is faithful, and there
is none yet for a number that was not given. -/
structure Tracks (lapse : Prop) (before : Ledger) (key : EntityKey) (s : Session) : Prop where
  sound : s.ledger.Sound
  unrecorded : key.IsNew s.ledger.issued → s.journal.record? key = none
  faithful : (s.sight key).Faithful lapse key (before.facts? key)

variable {lapse : Prop} {before : Ledger} {key : EntityKey} {s s₁ : Session}

theorem tracks_start (h : before.Sound) (key : EntityKey) : Tracks lapse before key (start before) where
  sound := h
  unrecorded _ := rfl
  faithful := ⟨rfl, fun _ => rfl⟩

theorem Step.tracks (h : Tracks lapse before key s) (hstep : Step lapse key s s₁) :
    Tracks lapse before key s₁ where
  sound := hstep.changed.sound h.sound
  unrecorded hnew := by
    have hissued := hnew.of_le hstep.changed.issued_le
    have hfacts := h.sound.given.facts?_eq_none hissued
    have hfacts₁ := (hstep.changed.sound h.sound).given.facts?_eq_none hnew
    have hrecord := h.unrecorded hissued
    have hturn := hstep.turn
    rw [sight, sight, hfacts, hfacts₁, hrecord] at hturn
    generalize hw : s₁.journal.record? key = r at hturn ⊢
    cases hturn with
    | untouched => rfl
  faithful := h.faithful.turn (fun _ hb => Ledger.fields_of_facts? hb) h.unrecorded hstep.turn

theorem Steps.tracks (h : Tracks lapse before key s) (hsteps : Steps lapse key s s₁) :
    Tracks lapse before key s₁ := by
  induction hsteps with
  | refl => exact h
  | tail _ hstep ih => exact hstep.tracks ih

namespace Run

variable {allowed : Session → Edit → Prop} {edits : List Edit}

/-- What a whole run does under a key, if matchings of lots go through. -/
theorem steps (hrun : Run allowed s edits s₁) (hs : s.ledger.Sound)
    (hmatches : key.kind = .lot → ∀ s edit, allowed s edit → s.Matches edit)
    (hlapse : Slips key s edits → lapse) : Steps lapse key s s₁ := by
  induction hrun with
  | done => exact .refl
  | step hallowed hedit _ ih =>
    have hsteps := perform_steps hs hedit key (fun hk => hmatches hk _ _ hallowed)
      fun h => hlapse (.now h)
    exact hsteps.trans (ih (hsteps.changed.sound hs) fun h => hlapse (.later hedit h))

theorem changed (hrun : Run allowed s edits s₁) (hs : s.ledger.Sound) :
    s.ledger.Changed s₁.ledger := by
  have hsteps : Steps True (.account ⟨0⟩) s s₁ := hrun.steps hs (fun h => by cases h) fun _ => trivial
  exact hsteps.changed

theorem journal (hrun : Run allowed s edits s₁) (hs : s.ledger.Sound) :
    s.journal.Extends s₁.journal := by
  have hsteps : Steps True (.account ⟨0⟩) s s₁ := hrun.steps hs (fun h => by cases h) fun _ => trivial
  exact hsteps.journal

/-- Whatever a session did, its journal is faithful under every key, if matchings of lots go through
and overlook none. -/
theorem tracks (hrun : Run allowed (start before) edits s) (hbefore : before.Sound)
    (hmatches : key.kind = .lot → ∀ s edit, allowed s edit → s.Matches edit) :
    Tracks (Slips key (start before) edits) before key s :=
  (hrun.steps hbefore hmatches id).tracks (tracks_start hbefore key)

end Run

end Session

end Lotbook
