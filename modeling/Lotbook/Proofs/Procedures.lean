/-
# Lotbook.Proofs.Procedures -- removing things bit by bit

A transaction is removed entry by entry, and an entry is deleted together with its lots, with the other
leg of its transfer and with the transaction that this leg leaves behind. If one of these steps were
refused, those before it would have been taken already. Here the steps are taken in place, each on what
the one before left (`Procedure`), and it turns out that none is refused once the first check has passed:
in a sound ledger whatever is to be removed is still there when its turn comes. So a removal that is
refused changes nothing (`Ledger.Sound.performInPlace_eq`, `Session.performInPlace_eq`).
-/
import Lotbook.Proofs.EditSteps
import Lotbook.Proofs.Operations

namespace Lotbook

/-! ## Procedures -/

/-- Something that is done to a state bit by bit. Where it is refused, what was done before stays. -/
abbrev Procedure (σ α : Type) := EStateM LedgerError σ α

namespace Procedure

variable {σ α β κ : Type} {s s₁ : σ}

/-- A single step, which checks all that it needs before it changes anything. -/
def step (f : σ → Except LedgerError (α × σ)) : Procedure σ α := fun s =>
  match f s with
  | .ok (a, s₁) => .ok a s₁
  | .error e => .error e s

/-- Looks something up that has to be there. -/
def find (error : LedgerError) (f : σ → Option α) : Procedure σ α :=
  step fun s => return (← orError error (f s), s)

/-- Why a procedure was refused, if it was, and the state that it leaves. -/
def aftermath : EStateM.Result LedgerError σ α → Aftermath σ
  | .ok _ s => (none, s)
  | .error e s => (some (.ledger e), s)

theorem step_ok {f : σ → Except LedgerError (α × σ)} {a : α} (h : f s = .ok (a, s₁)) :
    step f s = .ok a s₁ := by
  unfold step
  rw [h]

theorem find_ok {error : LedgerError} {f : σ → Option α} {a : α} (h : f s = some a) :
    find error f s = .ok a s := by
  apply step_ok
  rw [h]
  rfl

theorem find_error {error : LedgerError} {f : σ → Option α} (h : f s = none) :
    find error f s = .error error s := by
  show (match (orError error (f s) >>= fun a => pure (a, s) : Except LedgerError (α × σ)) with
    | .ok (a, s₁) => EStateM.Result.ok a s₁
    | .error e => .error e s) = _
  rw [h]
  rfl

theorem bind_ok {p : Procedure σ α} {q : α → Procedure σ β} {a : α}
    {result : EStateM.Result LedgerError σ β} (hp : p s = .ok a s₁) (hq : q a s₁ = result) :
    (p >>= q) s = result := by
  show EStateM.bind p q s = _
  unfold EStateM.bind
  rw [hp]
  exact hq

theorem bind_error {p : Procedure σ α} {q : α → Procedure σ β} {e : LedgerError}
    (hp : p s = .error e s₁) : (p >>= q) s = .error e s₁ := by
  show EStateM.bind p q s = _
  unfold EStateM.bind
  rw [hp]

/-- Steps in a row, where they go through, are a fold. -/
theorem forM_ok {f : σ → κ → Except LedgerError σ} {p : κ → Procedure σ Unit}
    (hp : ∀ s k s₁, f s k = .ok s₁ → p k s = .ok () s₁) {ks : List κ}
    (h : ks.foldlM f s = .ok s₁) : ks.forM p s = .ok () s₁ := by
  induction ks generalizing s with
  | nil =>
    obtain rfl : s = s₁ := pure_eq_ok_iff.mp h
    rfl
  | cons k ks ih =>
    rw [List.foldlM_cons, bind_eq_ok_iff] at h
    obtain ⟨s₂, hstep, hrest⟩ := h
    exact bind_ok (hp s k s₂ hstep) (ih hrest)

/-- A procedure that is refused at the start or not at all leaves what a function gives, or the state
as it was. -/
theorem aftermath_eq_settle {p : Procedure σ α} {x : Except LedgerError σ}
    (hok : ∀ s₁, x = .ok s₁ → ∃ a, p s = .ok a s₁) (herror : ∀ e, x = .error e → p s = .error e s) :
    aftermath (p s) = settle s x := by
  cases x with
  | ok s₁ =>
    obtain ⟨a, ha⟩ := hok s₁ rfl
    rw [ha]
    rfl
  | error e =>
    rw [herror e rfl]
    rfl

end Procedure

/-! ## Removing a transaction -/

namespace Ledger

variable {l l₁ : Ledger}

/-- Removes a transaction: its entries one by one, and then itself. -/
def removeTransactionInPlace (id : TransactionId) : Procedure Ledger Transaction := do
  let t ← Procedure.find (.transactionNotFound id) (·.transaction? id)
  t.details.forM fun entry => Procedure.step fun l => return ((), (← l.removeEntry entry).2)
  Procedure.step fun l => do
    let t ← orError (.transactionNotFound id) (l.transaction? id)
    return (t, { l with transactions := l.transactions.erase id })

/-- Carries out an edit of a ledger, in place. Matching works in place anyway. -/
def performInPlace (l : Ledger) : Edit → Except ArithmeticFault (Aftermath Ledger)
  | .removeTransaction id => .ok (Procedure.aftermath (removeTransactionInPlace id l))
  | edit => l.perform edit

theorem removeTransactionInPlace_ok {id : TransactionId} {t : Transaction}
    (h : l.removeTransaction id = .ok (t, l₁)) : removeTransactionInPlace id l = .ok t l₁ := by
  simp only [removeTransaction, bind_eq_ok_iff, orError_eq_ok_iff, pure_eq_ok_iff] at h
  obtain ⟨t₀, ht₀, l₂, hentries, t', ht', h⟩ := h
  have hall : (t₀.details.forM fun entry =>
      Procedure.step fun l : Ledger => return ((), (← l.removeEntry entry).2)) l = .ok () l₂ := by
    refine Procedure.forM_ok (fun l i l₁ hstep => Procedure.step_ok ?_) hentries
    obtain ⟨⟨e, l'⟩, hremove, hl'⟩ := bind_eq_ok_iff.mp hstep
    obtain rfl : l' = l₁ := pure_eq_ok_iff.mp hl'
    rw [hremove]
    rfl
  refine Procedure.bind_ok (Procedure.find_ok ht₀) (Procedure.bind_ok hall (Procedure.step_ok ?_))
  rw [ht', ← h]
  rfl

theorem exists_removeEntry {id : EntryId} {e : Entry} (he : l.entry? id = some e) :
    ∃ r, l.removeEntry id = .ok r := by
  unfold removeEntry
  rw [he]
  exact ⟨_, rfl⟩

/-- Entries that are there, each listed once, can be removed one after the other; no transaction goes
with them. -/
theorem exists_removeEntries {ids : List EntryId} (hnodup : ids.Nodup)
    (hids : ∀ id ∈ ids, ∃ e, l.entry? id = some e) :
    ∃ l₁, l.removeEntries ids = .ok l₁ ∧
      ∀ t, (l₁.transaction? t).isSome = (l.transaction? t).isSome := by
  induction ids generalizing l with
  | nil => exact ⟨l, rfl, fun _ => rfl⟩
  | cons id ids ih =>
    obtain ⟨hfresh, hnodup⟩ := List.nodup_cons.mp hnodup
    obtain ⟨e, he⟩ := hids id List.mem_cons_self
    obtain ⟨⟨removed, l₂⟩, hremove⟩ := exists_removeEntry he
    obtain ⟨x, -, -, ht, hentry, -⟩ := removeEntry_eq_ok hremove
    -- an entry that goes unlinks its other leg, which stays there
    have hrest : ∀ i ∈ ids, ∃ e, l₂.entry? i = some e := by
      intro i hi
      obtain ⟨y, hy⟩ := hids i (List.mem_cons_of_mem id hi)
      have hne : i ≠ id := fun heq => hfresh (heq ▸ hi)
      rw [hentry, if_neg hne, hy]
      split
      · exact ⟨_, rfl⟩
      · exact ⟨y, rfl⟩
    obtain ⟨l₁, hremoves, hsame⟩ := ih hnodup hrest
    refine ⟨l₁, foldlM_cons_ok (by rw [hremove]; rfl) hremoves, fun t => ?_⟩
    rw [hsame, ht]
    split
    · rw [Option.isSome_map]
    · rfl

/-- A transaction that is there can be removed. -/
theorem Sound.exists_removeTransaction (h : l.Sound) {id : TransactionId} {t : Transaction}
    (ht : l.transaction? id = some t) : ∃ r, l.removeTransaction id = .ok r := by
  have hids : ∀ i ∈ t.details, ∃ e, l.entry? i = some e := by
    intro i hi
    obtain ⟨e, he, -⟩ := h.owned.detail id t ht i hi
    exact ⟨e, he⟩
  obtain ⟨l₂, hremoves, hsame⟩ := exists_removeEntries (h.owned.nodup id t ht) hids
  obtain ⟨t', ht'⟩ : ∃ t', l₂.transaction? id = some t' := by
    rw [← Option.isSome_iff_exists, hsame, ht]
    rfl
  refine ⟨(t', { l₂ with transactions := l₂.transactions.erase id }), ?_⟩
  simp only [removeTransaction, bind_eq_ok_iff, orError_eq_ok_iff, pure_eq_ok_iff]
  exact ⟨t, ht, l₂, hremoves, t', ht', rfl⟩

/-- In a sound ledger, an edit that is carried out in place changes nothing when it is refused, unless
it does so anyway. -/
theorem Sound.performInPlace_eq (h : l.Sound) (edit : Edit) :
    l.performInPlace edit = l.perform edit := by
  cases edit with
  | removeTransaction id =>
    refine congrArg Except.ok (Procedure.aftermath_eq_settle (fun l₁ hok => ?_) fun e herror => ?_)
    · obtain ⟨⟨t, _⟩, hremove, rfl⟩ := map_eq_ok_iff.mp hok
      exact ⟨t, removeTransactionInPlace_ok hremove⟩
    · cases ht : l.transaction? id with
      | some t =>
        obtain ⟨r, hr⟩ := h.exists_removeTransaction ht
        rw [hr] at herror
        cases herror
      | none =>
        rw [removeTransaction, ht] at herror
        obtain rfl := Except.error.inj herror
        exact Procedure.bind_error (Procedure.find_error ht)
  | _ => rfl

end Ledger

/-! ## Deleting entries and transactions -/

namespace Session

variable {s s₁ : Session}

/-- Removes an entry: its lots one by one, and then itself. -/
def removeEntryInPlace (id : EntryId) : Procedure Session Unit := do
  let s ← get
  (s.ledger.lotsTouching id).forM fun key => Procedure.step fun s => return ((), ← s.deleteLot key)
  Procedure.step fun s => do
    let owner := (s.ledger.entry? id).bind Entry.transaction
    let (e, ledger) ← s.ledger.removeEntry id
    return ((), ⟨ledger, s.journal.removeEntry e owner⟩)

/-- Removes a transaction with whatever entries it still owns; the journal is written afterwards. -/
def removeTransactionInPlace (id : TransactionId) : Procedure Session Unit := fun s =>
  match Ledger.removeTransactionInPlace id s.ledger with
  | .ok t ledger => .ok () ⟨ledger, s.journal.remove (.transaction t)⟩
  | .error e ledger => .error e { s with ledger }

/-- Deletes an entry: itself, then the other leg of its transfer, then the transaction that this leg has
left without entries. -/
def deleteEntryInPlace (id : EntryId) : Procedure Session Unit := do
  let before ← get
  let e ← Procedure.find (.entryNotFound id) fun s => s.ledger.entry? id
  removeEntryInPlace id
  match before.ledger.linkedLeg? id with
  | none => pure ()
  | some other => do
      removeEntryInPlace other.id
      match other.transaction with
      | none => pure ()
      | some otherOwner => do
          let s ← get
          let isEmptied :=
            some otherOwner ≠ e.transaction
              ∧ ((s.ledger.transaction? otherOwner).map Transaction.details) = some []
          if isEmptied then removeTransactionInPlace otherOwner else pure ()

/-- Deletes a transaction: its entries one by one, with what goes with each, and then itself. -/
def deleteTransactionInPlace (id : TransactionId) : Procedure Session Unit := do
  let t ← Procedure.find (.transactionNotFound id) fun s => s.ledger.transaction? id
  t.details.forM fun entry => do
    let s ← get
    if (s.ledger.entry? entry).isSome then deleteEntryInPlace entry else pure ()
  let s ← get
  if (s.ledger.transaction? id).isSome then removeTransactionInPlace id else pure ()

/-- Carries out an edit in a session, in place. -/
def performInPlace (s : Session) : Edit → Except ArithmeticFault (Aftermath Session)
  | .deleteTransaction id => .ok (Procedure.aftermath (deleteTransactionInPlace id s))
  | .deleteEntry id => .ok (Procedure.aftermath (deleteEntryInPlace id s))
  | edit => s.perform edit

/-! ### Procedures that go through -/

theorem removeEntryInPlace_ok {id : EntryId} (h : s.removeEntry id = .ok s₁) :
    removeEntryInPlace id s = .ok () s₁ := by
  simp only [removeEntry, bind_eq_ok_iff, pure_eq_ok_iff, Prod.exists] at h
  obtain ⟨s₂, hlots, e, l₁, hremove, rfl⟩ := h
  have hall : ((s.ledger.lotsTouching id).forM fun key =>
      Procedure.step fun s : Session => return ((), ← s.deleteLot key)) s = .ok () s₂ := by
    refine Procedure.forM_ok (fun s key s₁ hdelete => Procedure.step_ok ?_) hlots
    rw [hdelete]
    rfl
  unfold removeEntryInPlace
  refine Procedure.bind_ok (by rfl) (Procedure.bind_ok hall (Procedure.step_ok ?_))
  rw [hremove]
  rfl

theorem removeTransactionInPlace_ok {id : TransactionId} (h : s.removeTransaction id = .ok s₁) :
    removeTransactionInPlace id s = .ok () s₁ := by
  simp only [removeTransaction, bind_eq_ok_iff, pure_eq_ok_iff, Prod.exists] at h
  obtain ⟨t, l₁, hremove, rfl⟩ := h
  unfold removeTransactionInPlace
  rw [Ledger.removeTransactionInPlace_ok hremove]

theorem deleteEntryInPlace_ok {id : EntryId} (h : s.deleteEntry id = .ok s₁) :
    deleteEntryInPlace id s = .ok () s₁ := by
  simp only [deleteEntry, bind_eq_ok_iff, orError_eq_ok_iff] at h
  obtain ⟨e, he, s₂, hremove, h⟩ := h
  unfold deleteEntryInPlace
  refine Procedure.bind_ok (by rfl) (Procedure.bind_ok (Procedure.find_ok he)
    (Procedure.bind_ok (removeEntryInPlace_ok hremove) ?_))
  cases hother : s.ledger.linkedLeg? id with
  | none =>
    rw [hother] at h
    obtain rfl : s₂ = s₁ := pure_eq_ok_iff.mp h
    rfl
  | some other =>
    rw [hother] at h
    obtain ⟨s₃, hremove', h⟩ := bind_eq_ok_iff.mp h
    refine Procedure.bind_ok (removeEntryInPlace_ok hremove') ?_
    cases howner : other.transaction with
    | none =>
      rw [howner] at h
      obtain rfl : s₃ = s₁ := pure_eq_ok_iff.mp h
      rfl
    | some otherOwner =>
      rw [howner] at h
      refine Procedure.bind_ok (by rfl) ?_
      dsimp only at h ⊢
      split at h
      · rename_i hemptied
        rw [if_pos hemptied]
        exact removeTransactionInPlace_ok h
      · rename_i hkept
        obtain rfl : s₃ = s₁ := pure_eq_ok_iff.mp h
        rw [if_neg hkept]
        rfl

theorem deleteTransactionInPlace_ok {id : TransactionId} (h : s.deleteTransaction id = .ok s₁) :
    deleteTransactionInPlace id s = .ok () s₁ := by
  simp only [deleteTransaction, bind_eq_ok_iff, orError_eq_ok_iff] at h
  obtain ⟨t, ht, s₂, hentries, h⟩ := h
  unfold deleteTransactionInPlace
  refine Procedure.bind_ok (Procedure.find_ok ht) (Procedure.bind_ok
    (Procedure.forM_ok (fun s entry s₁ hstep => Procedure.bind_ok (by rfl) ?_) hentries)
    (Procedure.bind_ok (by rfl) ?_))
  · show (if (s.ledger.entry? entry).isSome then deleteEntryInPlace entry else pure ()) s = _
    split at hstep
    · rename_i hthere
      rw [if_pos hthere]
      exact deleteEntryInPlace_ok hstep
    · rename_i hgone
      obtain rfl : s = s₁ := pure_eq_ok_iff.mp hstep
      rw [if_neg hgone]
      rfl
  · split at h
    · rename_i hthere
      rw [if_pos hthere]
      exact removeTransactionInPlace_ok h
    · rename_i hgone
      obtain rfl : s₂ = s₁ := pure_eq_ok_iff.mp h
      rw [if_neg hgone]
      rfl

/-! ### Removals that are not refused -/

/-- Lots that are there, each listed once, can be deleted one after the other. -/
theorem exists_deleteLots {keys : List LotKey} (hnodup : keys.Nodup)
    (hlots : ∀ key ∈ keys, ∃ lot, s.ledger.lot? key = some lot) :
    ∃ s₁, keys.foldlM deleteLot s = .ok s₁ := by
  induction keys generalizing s with
  | nil => exact ⟨s, rfl⟩
  | cons key keys ih =>
    obtain ⟨hfresh, hnodup⟩ := List.nodup_cons.mp hnodup
    obtain ⟨lot, hlot⟩ := hlots key List.mem_cons_self
    have hdelete : s.deleteLot key =
        .ok ⟨{ s.ledger with lots := s.ledger.lots.erase key }, s.journal.remove (.lot lot)⟩ := by
      rw [deleteLot, Ledger.removeLot, hlot]
      rfl
    have hrest : ∀ k ∈ keys, ∃ lot,
        { s.ledger with lots := s.ledger.lots.erase key }.lot? k = some lot := by
      intro k hk
      have hne : k ≠ key := fun heq => hfresh (heq ▸ hk)
      rw [Ledger.lot?_erase, if_neg hne]
      exact hlots k (List.mem_cons_of_mem key hk)
    obtain ⟨s₁, hdeletes⟩ := ih (s := ⟨_, s.journal.remove (.lot lot)⟩) hnodup hrest
    exact ⟨s₁, foldlM_cons_ok hdelete hdeletes⟩

theorem exists_removeEntry {id : EntryId} {e : Entry} (he : s.ledger.entry? id = some e) :
    ∃ s₁, s.removeEntry id = .ok s₁ := by
  obtain ⟨s₂, hlots⟩ : ∃ s₂, (s.ledger.lotsTouching id).foldlM deleteLot s = .ok s₂ :=
    exists_deleteLots (s.ledger.lots.nodup_keys.filter _)
      fun key hkey => (Ledger.mem_lotsTouching_iff.mp hkey).1
  obtain ⟨-, hsame, -⟩ := deleteLots_eq_ok hlots
  have he₂ : s₂.ledger.entry? id = some e := by
    rw [hsame]
    exact he
  obtain ⟨r, hremove⟩ := Ledger.exists_removeEntry he₂
  simp only [removeEntry, bind_eq_ok_iff, pure_eq_ok_iff]
  exact ⟨_, s₂, hlots, r, hremove, rfl⟩

/-- Removing an entry leaves all other entries there. -/
theorem exists_entry_of_removeEntry {id i : EntryId} {e : Entry} (h : s.removeEntry id = .ok s₁)
    (hi : i ≠ id) (he : s.ledger.entry? i = some e) : ∃ e₁, s₁.ledger.entry? i = some e₁ := by
  simp only [removeEntry, bind_eq_ok_iff, pure_eq_ok_iff, Prod.exists] at h
  obtain ⟨s₂, hlots, removed, l₁, hremove, rfl⟩ := h
  obtain ⟨-, hsame, -⟩ := deleteLots_eq_ok hlots
  have he₂ : s₂.ledger.entry? i = some e := by
    rw [hsame]
    exact he
  obtain ⟨x, -, -, -, hentry, -⟩ := Ledger.removeEntry_eq_ok hremove
  show ∃ e₁, l₁.entry? i = some e₁
  rw [hentry, if_neg hi, he₂]
  split
  · exact ⟨_, rfl⟩
  · exact ⟨e, rfl⟩

theorem exists_removeTransaction (hs : s.ledger.Sound) {id : TransactionId} {t : Transaction}
    (ht : s.ledger.transaction? id = some t) : ∃ s₁, s.removeTransaction id = .ok s₁ := by
  obtain ⟨r, hremove⟩ := hs.exists_removeTransaction ht
  rw [removeTransaction, hremove]
  exact ⟨_, rfl⟩

/-- An entry that is there can be deleted. -/
theorem exists_deleteEntry (hs : s.ledger.Sound) {id : EntryId} {e : Entry}
    (he : s.ledger.entry? id = some e) : ∃ s₁, s.deleteEntry id = .ok s₁ := by
  obtain ⟨s₂, hremove⟩ := exists_removeEntry he
  simp only [deleteEntry, bind_eq_ok_iff, orError_eq_ok_iff]
  suffices hrest : ∃ s₁, _ = Except.ok s₁ by
    obtain ⟨s₁, hrest⟩ := hrest
    exact ⟨s₁, e, he, s₂, hremove, hrest⟩
  cases hother : s.ledger.linkedLeg? id with
  | none => exact ⟨s₂, rfl⟩
  | some o =>
    -- the other leg is another entry, so it is still there
    obtain ⟨hlinked, ho⟩ := (Ledger.linkedLeg?_eq_some he).mp hother
    obtain ⟨hne, -⟩ := hs.paired id e o.id he hlinked
    obtain ⟨o₂, ho₂⟩ := exists_entry_of_removeEntry hremove hne ho
    obtain ⟨s₃, hremove'⟩ := exists_removeEntry ho₂
    have hdeletes := removeEntry_deletes hs hremove
    have hsound₃ : s₃.ledger.Sound :=
      (removeEntry_deletes (hdeletes.sound hs) hremove').sound (hdeletes.sound hs)
    simp only [bind_eq_ok_iff]
    suffices hrest : ∃ s₁, _ = Except.ok s₁ by
      obtain ⟨s₁, hrest⟩ := hrest
      exact ⟨s₁, s₃, hremove', hrest⟩
    cases howner : o.transaction with
    | none => exact ⟨s₃, rfl⟩
    | some otherOwner =>
      dsimp only
      split
      · rename_i hemptied
        obtain ⟨t, ht, -⟩ := Option.map_eq_some_iff.mp hemptied.2
        exact exists_removeTransaction hsound₃ ht
      · exact ⟨s₃, rfl⟩

theorem exists_deleteEntries (hs : s.ledger.Sound) (ids : List EntryId) :
    ∃ s₁, s.deleteEntries ids = .ok s₁ := by
  induction ids generalizing s with
  | nil => exact ⟨s, rfl⟩
  | cons id ids ih =>
    cases he : s.ledger.entry? id with
    | some e =>
      obtain ⟨s₂, hdelete⟩ := exists_deleteEntry hs he
      obtain ⟨s₁, hrest⟩ := ih ((deleteEntry_deletes hs hdelete).sound hs)
      refine ⟨s₁, foldlM_cons_ok ?_ hrest⟩
      rw [he]
      exact hdelete
    | none =>
      obtain ⟨s₁, hrest⟩ := ih hs
      refine ⟨s₁, foldlM_cons_ok ?_ hrest⟩
      rw [he]
      rfl

/-- A transaction that is there can be deleted. -/
theorem exists_deleteTransaction (hs : s.ledger.Sound) {id : TransactionId} {t : Transaction}
    (ht : s.ledger.transaction? id = some t) : ∃ s₁, s.deleteTransaction id = .ok s₁ := by
  obtain ⟨s₂, hentries⟩ := exists_deleteEntries hs t.details
  have hsound : s₂.ledger.Sound := (deleteEntries_deletes hs hentries).sound hs
  simp only [deleteTransaction, bind_eq_ok_iff, orError_eq_ok_iff]
  cases ht₂ : s₂.ledger.transaction? id with
  | some t₂ =>
    obtain ⟨s₁, hremove⟩ := exists_removeTransaction hsound ht₂
    refine ⟨s₁, t, ht, s₂, hentries, ?_⟩
    rw [ht₂]
    exact hremove
  | none =>
    refine ⟨s₂, t, ht, s₂, hentries, ?_⟩
    rw [ht₂]
    rfl

/-- In a session with a sound ledger, an edit that is carried out in place changes nothing when it is
refused, unless it does so anyway. -/
theorem performInPlace_eq (hs : s.ledger.Sound) (edit : Edit) :
    s.performInPlace edit = s.perform edit := by
  cases edit with
  | deleteEntry id =>
    refine congrArg Except.ok (Procedure.aftermath_eq_settle
      (fun s₁ hok => ⟨(), deleteEntryInPlace_ok hok⟩) fun e herror => ?_)
    cases he : s.ledger.entry? id with
    | some x =>
      obtain ⟨s₁, hdelete⟩ := exists_deleteEntry hs he
      rw [hdelete] at herror
      cases herror
    | none =>
      rw [deleteEntry, he] at herror
      obtain rfl := Except.error.inj herror
      exact Procedure.bind_ok (by rfl) (Procedure.bind_error (Procedure.find_error he))
  | deleteTransaction id =>
    refine congrArg Except.ok (Procedure.aftermath_eq_settle
      (fun s₁ hok => ⟨(), deleteTransactionInPlace_ok hok⟩) fun e herror => ?_)
    cases ht : s.ledger.transaction? id with
    | some t =>
      obtain ⟨s₁, hdelete⟩ := exists_deleteTransaction hs ht
      rw [hdelete] at herror
      cases herror
    | none =>
      rw [deleteTransaction, ht] at herror
      obtain rfl := Except.error.inj herror
      exact Procedure.bind_error (Procedure.find_error ht)
  | _ => rfl

end Session

end Lotbook
