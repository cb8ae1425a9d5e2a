/-
# Lotbook.Proofs.Refusals -- what is left of an edit that is refused

An edit that is refused leaves a reachable ledger as it was, whatever it did before it was refused; and in
a session the journal stays as well. There is one exception: matching a sale with given candidates takes
them one after the other, and it is refused at the first that is no entry (`Ledger.BreaksOff`). The lots
that it made and those that it let grow for the candidates before stay, and a session does not note
them.
-/
import Lotbook.Proofs.Candidates
import Lotbook.Proofs.LotsFollow
import Lotbook.Proofs.Procedures

namespace Lotbook

namespace Ledger

variable {l l₁ : Ledger} {sale : EntryId} {demand : Decimal}

/-! ## Matching a sale with one candidate after the other -/

theorem insertLot_eq_error {key : LotKey} {e : LedgerError} (h : l.insertLot key = .error e) :
    l.entry? key.purchase = none ∧ e = .entryNotFound key.purchase ∨
      l.entry? key.sale = none ∨ ∃ lot, l.lot? key = some lot := by
  rw [insertLot] at h
  split at h
  · rename_i hpurchase
    exact .inl ⟨Option.isNone_iff_eq_none.mp hpurchase, (Except.error.inj h).symm⟩
  · split at h
    · rename_i hsale
      exact .inr (.inl (Option.isNone_iff_eq_none.mp hsale))
    · split at h
      · rename_i hlot
        exact .inr (.inr (Option.isSome_iff_exists.mp hlot))
      · cases h

/-- Taking over an outcome with nothing noted. -/
theorem map_unnoted (x : Except ArithmeticFault (Except LedgerError Allocation × Ledger)) :
    (fun r => (r.1.map id, r.2)) <$> x = x := by
  rcases x with _ | ⟨_ | _, _⟩ <;> rfl

/-- Whatever candidates come after one, there is a fault at it, or the matching goes on after it, with what
is left of the demand and perhaps with something to note. -/
def GoesOn (l : Ledger) (sale : EntryId) (demand : Decimal) (purchase : EntryId) : Prop :=
  (∃ fault, ∀ rest, l.coverDemand sale demand (purchase :: rest) = .error fault) ∨
    ∃ l₂ left note, l.SameButLots l₂ ∧ (∀ a : Allocation, (note a).unallocated = a.unallocated) ∧
      ∀ rest, l.coverDemand sale demand (purchase :: rest) =
        (fun r => (r.1.map note, r.2)) <$> l₂.coverDemand sale left rest

/-- A lot that is there, or is made, is noted if it took something. -/
theorem goesOn_of_withLot {purchase : EntryId} {made : Ledger} (hdemand : demand ≠ 0)
    (hself : purchase ≠ sale) (hmade : l.withLot ⟨purchase, sale⟩ = .ok made) :
    l.GoesOn sale demand purchase := by
  cases hgrow : made.allocateShares ⟨purchase, sale⟩ demand with
  | error fault =>
    refine .inl ⟨fault, fun rest => ?_⟩
    rw [coverDemand_cons_eq hdemand hself, hmade]
    simp only [hgrow]
    rfl
  | ok r =>
    obtain ⟨left, after⟩ := r
    obtain ⟨hchanged, hsame, hother, hkey⟩ := offered_changed hmade hgrow
    by_cases htook : left < demand
    · refine .inr ⟨after, left, l.noted ⟨purchase, sale⟩, hsame, l.unallocated_noted _, fun rest => ?_⟩
      rw [coverDemand_cons_eq hdemand hself, hmade]
      simp only [hgrow, bind, Except.bind, htook, if_true]
      cases after.coverDemand sale left rest <;> rfl
    · refine .inr ⟨l.dropIfNew ⟨purchase, sale⟩ after, left, id,
        (dropIfNew_changed hchanged hsame hother hkey).2.1, fun _ => rfl, fun rest => ?_⟩
      rw [coverDemand_cons_eq hdemand hself, hmade, map_unnoted]
      simp only [hgrow, bind, Except.bind, htook, if_false]

/-- The matching breaks off at a candidate that is no entry, or it goes on. -/
theorem coverDemand_cons (hsale : ∃ e, l.entry? sale = some e) (hdemand : demand ≠ 0)
    (purchase : EntryId) :
    (l.entry? purchase = none ∧ ∀ rest, l.coverDemand sale demand (purchase :: rest) =
        .ok (.error (.entryNotFound purchase), l)) ∨
      l.GoesOn sale demand purchase := by
  -- a sale is not matched with itself
  by_cases hself : purchase = sale
  · refine .inr (.inr ⟨l, demand, id, .refl l, fun _ => rfl, fun rest => ?_⟩)
    rw [coverDemand, if_neg hdemand, if_pos hself, map_unnoted]
  cases hmade : l.withLot ⟨purchase, sale⟩ with
  | ok made => exact .inr (goesOn_of_withLot hdemand hself hmade)
  | error e =>
    obtain ⟨hlot, hinsert⟩ := withLot_eq_error hmade
    rcases insertLot_eq_error hinsert with ⟨hnone, rfl⟩ | hnone | ⟨lot, hsome⟩
    · refine .inl ⟨hnone, fun rest => ?_⟩
      rw [coverDemand_cons_eq hdemand hself, hmade]
    · obtain ⟨e, he⟩ := hsale
      simp [he] at hnone
    · simp [hlot] at hsome

/-- A matching that is refused has broken off at a candidate that is no entry, with some of the demand
left by the candidates before it. -/
theorem coverDemand_refused {candidates : List EntryId} {e : LedgerError}
    (hsale : ∃ x, l.entry? sale = some x)
    (h : l.coverDemand sale demand candidates = .ok (.error e, l₁)) :
    ∃ before purchase after a, candidates = before ++ purchase :: after ∧
      l.entry? purchase = none ∧ e = .entryNotFound purchase ∧
      l.coverDemand sale demand before = .ok (.ok a, l₁) ∧ a.unallocated ≠ 0 := by
  induction candidates generalizing l demand e with
  | nil => cases (Prod.mk.inj (Except.ok.inj h)).1
  | cons purchase candidates ih =>
    -- without a demand nothing is refused
    by_cases hdemand : demand = 0
    · rw [coverDemand, if_pos hdemand] at h
      cases (Prod.mk.inj (Except.ok.inj h)).1
    rcases coverDemand_cons hsale hdemand purchase with
      ⟨hnone, hbreaks⟩ | ⟨fault, hfault⟩ | ⟨l₂, left, note, hsame, hnote, hgoes⟩
    · rw [hbreaks] at h
      obtain ⟨he, rfl⟩ := Prod.mk.inj (Except.ok.inj h)
      exact ⟨[], purchase, candidates, ⟨[], [], demand⟩, rfl, hnone, (Except.error.inj he).symm, rfl,
        hdemand⟩
    · rw [hfault] at h
      cases h
    · rw [hgoes] at h
      obtain ⟨⟨outcome, l₃⟩, hrest, heq⟩ := map_eq_ok_iff.mp h
      obtain ⟨houtcome, rfl⟩ := Prod.mk.inj heq
      have hsale₂ : ∃ x, l₂.entry? sale = some x := by
        rw [hsame]
        exact hsale
      cases outcome with
      | ok a => cases houtcome
      | error e' =>
        obtain rfl : e' = e := Except.error.inj houtcome
        obtain ⟨before, stop, after, a, rfl, hnone, he, hbefore, ha⟩ := ih hsale₂ hrest
        refine ⟨purchase :: before, stop, after, note a, rfl, ?_, he, ?_, ?_⟩
        · rw [hsame] at hnone
          exact hnone
        · rw [hgoes, hbefore]
          rfl
        · rw [hnote]
          exact ha

/-- A matching breaks off at a candidate that is no entry if those before it leave some of the demand. -/
theorem coverDemand_breaksOff {before after : List EntryId} {purchase : EntryId} {a : Allocation}
    (hsale : ∃ x, l.entry? sale = some x) (hnone : l.entry? purchase = none)
    (h : l.coverDemand sale demand before = .ok (.ok a, l₁)) (ha : a.unallocated ≠ 0)
    (hlot : l₁.lot? ⟨purchase, sale⟩ = none) :
    l.coverDemand sale demand (before ++ purchase :: after) =
      .ok (.error (.entryNotFound purchase), l₁) := by
  -- the candidates before are taken as they are without what comes after
  induction before generalizing l demand a with
  | nil =>
    obtain ⟨houtcome, rfl⟩ := Prod.mk.inj (Except.ok.inj h)
    obtain rfl := Except.ok.inj houtcome
    have hother : purchase ≠ sale := by
      rintro rfl
      obtain ⟨x, hx⟩ := hsale
      simp [hx] at hnone
    have hinsert : l.insertLot ⟨purchase, sale⟩ = .error (.entryNotFound purchase) := by
      rw [insertLot, if_pos (Option.isNone_iff_eq_none.mpr hnone)]
    rw [List.nil_append, coverDemand, if_neg ha, if_neg hother]
    simp only [hlot, hinsert]
  | cons first before ih =>
    by_cases hdemand : demand = 0
    · rw [coverDemand, if_pos hdemand] at h
      obtain rfl := Except.ok.inj (Prod.mk.inj (Except.ok.inj h)).1
      exact absurd hdemand ha
    rcases coverDemand_cons hsale hdemand first with
      ⟨-, hbreaks⟩ | ⟨fault, hfault⟩ | ⟨l₂, left, note, hsame, hnote, hgoes⟩
    · rw [hbreaks] at h
      cases (Prod.mk.inj (Except.ok.inj h)).1
    · rw [hfault] at h
      cases h
    · rw [hgoes] at h
      obtain ⟨⟨outcome, l₃⟩, hrest, heq⟩ := map_eq_ok_iff.mp h
      obtain ⟨houtcome, rfl⟩ := Prod.mk.inj heq
      obtain ⟨b, rfl, rfl⟩ := map_eq_ok_iff.mp houtcome
      have hsale₂ : ∃ x, l₂.entry? sale = some x := by
        rw [hsame]
        exact hsale
      have hnone₂ : l₂.entry? purchase = none := by
        rw [hsame]
        exact hnone
      rw [List.cons_append, hgoes, ih hsale₂ hnone₂ hrest (hnote b ▸ ha)]
      rfl

/-! ## Breaking off -/

/-- The edit matches a sale with given candidates and is refused at one that is no entry; what it leaves
is what the matching with those before came to, which left some shares of the sale uncovered. -/
def BreaksOff (l : Ledger) (edit : Edit) (failure : Failure) (l₁ : Ledger) : Prop :=
  ∃ sale before purchase after a, edit = .allocateLots sale (before ++ purchase :: after) ∧
    l.entry? purchase = none ∧ failure = .ledger (.entryNotFound purchase) ∧
      l.allocateLots sale before = .ok (.ok a, l₁) ∧ a.unallocated ≠ 0

theorem allocateLots_refused {candidates : List EntryId} {e : LedgerError}
    (h : l.allocateLots sale candidates = .ok (.error e, l₁)) :
    l.entry? sale = none ∧ l₁ = l ∨
      ∃ before purchase after a, candidates = before ++ purchase :: after ∧
        l.entry? purchase = none ∧ e = .entryNotFound purchase ∧
        l.allocateLots sale before = .ok (.ok a, l₁) ∧ a.unallocated ≠ 0 := by
  unfold allocateLots at h ⊢
  cases hsale : l.entry? sale with
  | none =>
    rw [hsale] at h
    exact .inl ⟨rfl, (Prod.mk.inj (Except.ok.inj h)).2.symm⟩
  | some x =>
    rw [hsale] at h
    simp only [bind_eq_ok_iff] at h ⊢
    obtain ⟨covered, hcovered, uncovered, huncovered, h⟩ := h
    obtain ⟨before, purchase, after, a, hsplit, hnone, he, hbefore, ha⟩ :=
      coverDemand_refused ⟨x, hsale⟩ h
    exact .inr ⟨before, purchase, after, a, hsplit, hnone, he,
      ⟨covered, hcovered, uncovered, huncovered, hbefore⟩, ha⟩

/-- Unsold purchases are entries, in whatever order. -/
theorem exists_entry_of_unsold {account : AccountId} {security : SecurityId} {upTo : Date}
    {purchases sorted : List EntryId} {strategy : LotStrategy}
    (h : l.unsoldPurchases account security upTo = .ok purchases)
    (hsorted : strategy.sort l purchases = .ok sorted) {id : EntryId} (hid : id ∈ sorted) :
    ∃ e, l.entry? id = some e := by
  have hmem := (LotStrategy.sort_eq_ok hsorted).1.mem_iff.mp hid
  obtain ⟨e, he, -⟩ := (mem_unsoldPurchases h).mp hmem
  exact ⟨e, he⟩

/-- Matching by a strategy does not break off. -/
theorem allocateByStrategy_refused {strategy : LotStrategy} {e : LedgerError}
    (h : l.allocateByStrategy sale strategy = .ok (.error e, l₁)) : l₁ = l := by
  rcases allocateByStrategy_cases h with
    ⟨_, -, hsame⟩ | ⟨t, security, purchases, sorted, -, -, hpurchases, hsorted, h⟩
  · exact hsame
  · rcases allocateLots_refused h with ⟨-, hsame⟩ | ⟨before, purchase, after, -, rfl, hnone, -⟩
    · exact hsame
    -- the candidate that it would break off at is an unsold purchase
    · have hmem : purchase ∈ before ++ purchase :: after := by simp
      obtain ⟨x, hx⟩ := exists_entry_of_unsold hpurchases hsorted hmem
      simp [hnone] at hx

/-- A refused edit of a ledger breaks off a matching, or it leaves the ledger as it was. -/
theorem perform_refused {edit : Edit} {failure : Failure}
    (h : l.perform edit = .ok (some failure, l₁)) : l₁ = l ∨ l.BreaksOff edit failure l₁ := by
  cases hcompound : edit.isCompound with
  | false =>
    rcases perform_single hcompound h with ⟨hnone, -⟩ | ⟨-, hsame⟩
    · cases hnone
    · exact .inl hsame
  | true =>
    cases edit with
    | removeTransaction id => exact .inl (eq_of_settle_refused h)
    | allocateShares key demand =>
      obtain ⟨r, -, heq⟩ := map_eq_ok_iff.mp h
      cases (Prod.mk.inj heq).1
    | allocateLots sale candidates =>
      obtain ⟨⟨outcome, l₂⟩, hmatch, heq⟩ := map_eq_ok_iff.mp h
      cases outcome with
      | ok a => cases (Prod.mk.inj heq).1
      | error e =>
        obtain ⟨hfailure, rfl⟩ := Prod.mk.inj heq
        obtain rfl := Option.some.inj hfailure
        rcases allocateLots_refused hmatch with
          ⟨-, hsame⟩ | ⟨before, purchase, after, a, rfl, hnone, rfl, hbefore, ha⟩
        · exact .inl hsame
        · exact .inr ⟨sale, before, purchase, after, a, rfl, hnone, rfl, hbefore, ha⟩
    | allocateByStrategy sale strategy =>
      obtain ⟨⟨outcome, l₂⟩, hmatch, heq⟩ := map_eq_ok_iff.mp h
      cases outcome with
      | ok a => cases (Prod.mk.inj heq).1
      | error e =>
        obtain ⟨-, rfl⟩ := Prod.mk.inj heq
        exact .inl (allocateByStrategy_refused hmatch)
    | _ => cases hcompound

/-- In a reachable ledger, a matching with a candidate that is no entry does break off there. -/
theorem BreaksOff.perform_eq (hl : l.Reachable) {edit : Edit} {failure : Failure}
    (h : l.BreaksOff edit failure l₁) : l.perform edit = .ok (some failure, l₁) := by
  obtain ⟨sale, before, purchase, after, a, rfl, hnone, rfl, hbefore, ha⟩ := h
  have hbegun : l.perform (.allocateLots sale before) = .ok (none, l₁) := by
    show matchAftermath <$> l.allocateLots sale before = _
    rw [hbefore]
    rfl
  have hl₁ : l₁.Reachable := .edit hl hbegun
  have hsame : l.SameButLots l₁ := (allocateLots_matched hbefore).same
  -- the candidate has no lots either, since lots are lots of entries
  have hlot : l₁.lot? ⟨purchase, sale⟩ = none := by
    refine Option.eq_none_iff_forall_ne_some.mpr fun lot hlot => ?_
    obtain ⟨e, he⟩ := hl₁.lotsFollow.entries _ lot hlot purchase (.inl rfl)
    rw [hsame] at he
    exact absurd (hnone.symm.trans he) (by simp)
  have hmatch : l.allocateLots sale (before ++ purchase :: after) =
      .ok (.error (.entryNotFound purchase), l₁) := by
    unfold allocateLots at hbefore ⊢
    cases hsale : l.entry? sale with
    | none =>
      rw [hsale] at hbefore
      cases (Prod.mk.inj (Except.ok.inj hbefore)).1
    | some x =>
      rw [hsale] at hbefore
      simp only [bind_eq_ok_iff] at hbefore ⊢
      obtain ⟨covered, hcovered, uncovered, huncovered, hbefore⟩ := hbefore
      exact ⟨covered, hcovered, uncovered, huncovered,
        coverDemand_breaksOff ⟨x, hsale⟩ hnone hbefore ha hlot⟩
  show matchAftermath <$> l.allocateLots sale (before ++ purchase :: after) = _
  rw [hmatch]
  rfl

end Ledger

/-! ## In a session -/

/-- A refused edit in a session leaves the session as it was, or a matching in its ledger breaks off and
the journal says nothing of it. -/
theorem Session.perform_refused {s s₁ : Session} {edit : Edit} {failure : Failure}
    (h : s.perform edit = .ok (some failure, s₁)) :
    s₁ = s ∨ s₁.journal = s.journal ∧
      s.ledger.BreaksOff (edit.direct s.ledger.settings) failure s₁.ledger := by
  -- a matching that is refused hands on the ledger, and the journal as it was
  have matched (hdeletes : edit.deletes = false) (hjournal : s₁.journal = s.journal) :
      s₁ = s ∨ s₁.journal = s.journal ∧
        s.ledger.BreaksOff (edit.direct s.ledger.settings) failure s₁.ledger := by
    rcases Ledger.perform_refused (perform_direct_of_ok hdeletes h) with hsame | hbreaks
    · left
      cases s
      cases s₁
      exact congrArg₂ Session.mk hsame hjournal
    · exact .inr ⟨hjournal, hbreaks⟩
  have journal_matched {x : Except ArithmeticFault (Except LedgerError Allocation × Ledger)}
      (hx : matchAftermath <$> s.matched <$> x = .ok (some failure, s₁)) :
      s₁.journal = s.journal := by
    obtain ⟨r, hr, heq⟩ := map_eq_ok_iff.mp hx
    obtain ⟨⟨_ | _, _⟩, -, rfl⟩ := map_eq_ok_iff.mp hr
    · obtain rfl := (Prod.mk.inj heq).2
      rfl
    · cases (Prod.mk.inj heq).1
  cases edit with
  | addSecurity | addCategory | addTransaction => cases (Prod.mk.inj (Except.ok.inj h)).1
  | addSplit | deleteSplit | setDate | setSecurity => exact .inl (eq_of_attempt_refused h)
  | matchLots sale candidates =>
    exact matched rfl (journal_matched (x := s.ledger.allocateLots sale candidates) h)
  | matchByStrategy sale strategy => exact matched rfl (journal_matched h)
  | _ => exact .inl (eq_of_settle_refused h)

/-- An edit that is refused changes nothing, however far it had got: neither a reachable ledger nor a
session with its journal. Only a matching with given candidates leaves what it did before it broke off
at one that is no entry. -/
theorem Ledger.refused_edits {l : Ledger} (h : l.Reachable) :
    (∀ (edit : Edit) failure l₁, l.performInPlace edit = .ok (some failure, l₁) →
      l₁ = l ∨ l.BreaksOff edit failure l₁) ∧
    (∀ (edit : Edit) failure l₁, l.BreaksOff edit failure l₁ →
      l.performInPlace edit = .ok (some failure, l₁)) ∧
    ∀ (s : Session) (edit : Session.Edit) failure s₁, s.ledger = l →
      s.performInPlace edit = .ok (some failure, s₁) →
        s₁ = s ∨ s₁.journal = s.journal ∧
          l.BreaksOff (edit.direct l.settings) failure s₁.ledger := by
  have hs := h.sound
  refine ⟨fun edit failure l₁ hedit => ?_, fun edit failure l₁ hbreaks => ?_, ?_⟩
  · rw [hs.performInPlace_eq] at hedit
    exact perform_refused hedit
  · rw [hs.performInPlace_eq]
    exact hbreaks.perform_eq h
  · rintro s edit failure s₁ rfl hedit
    rw [Session.performInPlace_eq hs] at hedit
    exact Session.perform_refused hedit

namespace Ledger

/-- A purchase of one share and a sale of two. -/
def shortOfOne : List Edit := [
  .addTransaction ⟨7⟩ (.june 20) none,
  .addEntry ⟨1⟩ none (some 1) none,
  .addTransaction ⟨7⟩ (.june 21) none,
  .addEntry ⟨3⟩ none (some (-.whole 2)) none]

theorem refused_edits_shortOfOne : ∃ l l₁ : Ledger, l.Reachable ∧
    (∃ failure, l.performInPlace (.removeTransaction ⟨99⟩) = .ok (some failure, l)) ∧
    l.BreaksOff (.allocateLots ⟨4⟩ [⟨2⟩, ⟨99⟩]) (.ledger (.entryNotFound ⟨99⟩)) l₁ ∧
    l.performInPlace (.allocateLots ⟨4⟩ [⟨2⟩, ⟨99⟩]) =
      .ok (some (.ledger (.entryNotFound ⟨99⟩)), l₁) ∧
    ∃ failure, (Session.start l).performInPlace (.deleteEntry ⟨99⟩) =
      .ok (some failure, Session.start l) := by
  have hcheck : (((Ledger.new .standard).performAll shortOfOne).toOption.any fun l =>
      (l.performInPlace (.removeTransaction ⟨99⟩)).toOption.any fun removal =>
        ((Session.start l).performInPlace (.deleteEntry ⟨99⟩)).toOption.any fun deletion =>
          (l.allocateLots ⟨4⟩ [⟨2⟩]).toOption.any fun matching =>
            matching.1.toOption.any fun a => removal.1.isSome ∧ deletion.1.isSome ∧
              l.entry? ⟨99⟩ = none ∧ a.unallocated ≠ 0) = true := by
    decide +kernel
  obtain ⟨l, hl, hcheck⟩ := exists_ok_of_any hcheck
  obtain ⟨⟨refusal, l₂⟩, hremove, hcheck⟩ := exists_ok_of_any hcheck
  obtain ⟨⟨refusal', s₁⟩, hdelete, hcheck⟩ := exists_ok_of_any hcheck
  obtain ⟨⟨outcome, l₁⟩, hmatch, hcheck⟩ := exists_ok_of_any hcheck
  dsimp only at hcheck
  obtain ⟨a, rfl, hcheck⟩ := exists_ok_of_any hcheck
  obtain ⟨hrefusal, hrefusal', hnone, ha⟩ := of_decide_eq_true hcheck
  obtain ⟨failure, rfl⟩ := Option.isSome_iff_exists.mp hrefusal
  obtain ⟨failure', rfl⟩ := Option.isSome_iff_exists.mp hrefusal'
  have hreachable : l.Reachable := (Reachable.new .standard).performAll hl
  have hbreaks : l.BreaksOff (.allocateLots ⟨4⟩ [⟨2⟩, ⟨99⟩]) (.ledger (.entryNotFound ⟨99⟩)) l₁ :=
    ⟨⟨4⟩, [⟨2⟩], ⟨99⟩, [], a, rfl, hnone, rfl, hmatch, ha⟩
  obtain ⟨hledger, hbroken, hsession⟩ := refused_edits hreachable
  have hsame : l₂ = l := by
    rcases hledger _ failure l₂ hremove with hsame | ⟨_, _, _, _, _, hedit, -⟩
    · exact hsame
    · cases hedit
  have hsame' : s₁ = Session.start l := by
    rcases hsession (.start l) _ failure' s₁ rfl hdelete with hsame | ⟨-, _, _, _, _, _, hedit, -⟩
    · exact hsame
    · cases hedit
  refine ⟨l, l₁, hreachable, ⟨failure, ?_⟩, hbreaks, hbroken _ _ l₁ hbreaks, failure', ?_⟩
  · rw [hremove, hsame]
  · rw [hdelete, hsame']

/-- A matching that is refused can leave a lot that was not there before, and that the journal of a
session does not know. -/
theorem exists_halfMatched : ∃ (l l₁ : Ledger) (s₁ : Session) (failure failure' : Failure),
    l.Reachable ∧ l.perform (.allocateLots ⟨4⟩ [⟨2⟩, ⟨99⟩]) = .ok (some failure, l₁) ∧ l₁ ≠ l ∧
      (Session.start l).perform (.matchLots ⟨4⟩ [⟨2⟩, ⟨99⟩]) = .ok (some failure', s₁) ∧
      l.lot? ⟨⟨2⟩, ⟨4⟩⟩ = none ∧ (s₁.ledger.lot? ⟨⟨2⟩, ⟨4⟩⟩).isSome ∧
      s₁.journal.record? (.lot ⟨⟨2⟩, ⟨4⟩⟩) = none := by
  have hcheck : (((Ledger.new .standard).performAll shortOfOne).toOption.any fun l =>
      (l.perform (.allocateLots ⟨4⟩ [⟨2⟩, ⟨99⟩])).toOption.any fun (refusal, l₁) =>
        ((Session.start l).perform (.matchLots ⟨4⟩ [⟨2⟩, ⟨99⟩])).toOption.any fun (refusal', s₁) =>
          refusal.isSome ∧ refusal'.isSome ∧ l₁ ≠ l ∧ l.lot? ⟨⟨2⟩, ⟨4⟩⟩ = none ∧
            (s₁.ledger.lot? ⟨⟨2⟩, ⟨4⟩⟩).isSome ∧
              (s₁.journal.record? (.lot ⟨⟨2⟩, ⟨4⟩⟩)).isNone) = true := by
    decide +kernel
  obtain ⟨l, hl, hcheck⟩ := exists_ok_of_any hcheck
  obtain ⟨⟨refusal, l₁⟩, hl₁, hcheck⟩ := exists_ok_of_any hcheck
  obtain ⟨⟨refusal', s₁⟩, hs₁, hcheck⟩ := exists_ok_of_any hcheck
  obtain ⟨hrefusal, hrefusal', hne, hnone, hmade, hunnoted⟩ := of_decide_eq_true hcheck
  obtain ⟨failure, rfl⟩ := Option.isSome_iff_exists.mp hrefusal
  obtain ⟨failure', rfl⟩ := Option.isSome_iff_exists.mp hrefusal'
  exact ⟨l, l₁, s₁, failure, failure', (Reachable.new .standard).performAll hl, hl₁, hne, hs₁, hnone,
    hmade, Option.isNone_iff_eq_none.mp hunnoted⟩

end Ledger

end Lotbook
