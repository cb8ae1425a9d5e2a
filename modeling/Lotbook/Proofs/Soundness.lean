/-
# Lotbook.Proofs.Soundness -- what holds in every reachable ledger

Every number in use was given; transactions list exactly the entries that belong to them; the two
legs of a transfer refer to each other and carry opposite amounts and opposite shares
(`Ledger.Sound`). Elementary changes keep it, so it holds in every reachable ledger
(`Ledger.Reachable.sound`).

The three parts are kept for different reasons, and each has its own lemmas: numbers only grow; what
belongs to what changes when an entry comes or goes, and in no other way; and amounts and shares are
written to both legs at once. Splits and lots play no part here.
-/
import Lotbook.Proofs.Facts
import Lotbook.Proofs.Spreads

namespace Lotbook

theorem Decimal.neg_neg (d : Decimal) : -(-d) = d := Decimal.ext_units (by simp)

theorem map_neg_map_neg (d : Option Decimal) : (d.map (-·)).map (-·) = d := by
  cases d with
  | none => rfl
  | some d => exact congrArg some d.neg_neg

namespace Ledger

/-- No number is in use that was not given. -/
structure Given (l : Ledger) : Prop where
  transaction : ∀ id t, l.transaction? id = some t → id.number ≤ l.issued
  entry : ∀ id e, l.entry? id = some e → id.number ≤ l.issued
  security : ∀ id s, l.security? id = some s → id.number ≤ l.issued
  category : ∀ id c, l.category? id = some c → id.number ≤ l.issued

/-- The details of a transaction are the entries that belong to it, each of them once. No entry is
without an owner. -/
structure Owned (l : Ledger) : Prop where
  owner : ∀ id e, l.entry? id = some e →
    ∃ owner t, e.transaction = some owner ∧ l.transaction? owner = some t ∧ id ∈ t.details
  detail : ∀ id t, l.transaction? id = some t →
    ∀ i ∈ t.details, ∃ e, l.entry? i = some e ∧ e.transaction = some id
  nodup : ∀ id t, l.transaction? id = some t → t.details.Nodup

/-- The other leg of a transfer is another entry, with the opposite amount and shares. Links go both
ways, so an entry has one other leg at most. -/
def Paired (l : Ledger) : Prop :=
  ∀ id e other, l.entry? id = some e → e.related = some other →
    other ≠ id ∧ ∃ o, l.entry? other = some o ∧ o.related = some id ∧
      o.amount = e.amount.map (-·) ∧ o.quantity = e.quantity.map (-·)

/-- What holds in every ledger that can be reached. -/
structure Sound (l : Ledger) : Prop where
  given : l.Given
  owned : l.Owned
  paired : l.Paired

variable {l l₁ : Ledger}

theorem Given.transaction?_eq_none (h : l.Given) {id : TransactionId} (hid : l.issued < id.number) :
    l.transaction? id = none :=
  Option.eq_none_iff_forall_ne_some.mpr fun t ht =>
    absurd (h.transaction id t ht) (Int.not_le.mpr hid)

theorem Given.entry?_eq_none (h : l.Given) {id : EntryId} (hid : l.issued < id.number) :
    l.entry? id = none :=
  Option.eq_none_iff_forall_ne_some.mpr fun e he => absurd (h.entry id e he) (Int.not_le.mpr hid)

theorem Given.security?_eq_none (h : l.Given) {id : SecurityId} (hid : l.issued < id.number) :
    l.security? id = none :=
  Option.eq_none_iff_forall_ne_some.mpr fun s hs => absurd (h.security id s hs) (Int.not_le.mpr hid)

theorem Given.category?_eq_none (h : l.Given) {id : CategoryId} (hid : l.issued < id.number) :
    l.category? id = none :=
  Option.eq_none_iff_forall_ne_some.mpr fun c hc => absurd (h.category id c hc) (Int.not_le.mpr hid)

/-- There is nothing under a key with a number that was not given. Lots and splits have no number of
their own, so no key of theirs is new in this sense. -/
theorem Given.facts?_eq_none (h : l.Given) {key : EntityKey} (hnew : key.IsNew l.issued) :
    l.facts? key = none := by
  cases key with
  | transaction id => exact Option.map_eq_none_iff.mpr (h.transaction?_eq_none hnew)
  | entry id => exact Option.map_eq_none_iff.mpr (h.entry?_eq_none hnew)
  | security id => exact Option.map_eq_none_iff.mpr (h.security?_eq_none hnew)
  | category id => exact Option.map_eq_none_iff.mpr (h.category?_eq_none hnew)
  | lot key => exact hnew.elim
  | stockSplit s date => exact hnew.elim
  | account id => exact hnew.elim

/-- A number that is in use is not the next one. -/
theorem Given.transaction_ne_next (h : l.Given) {id : TransactionId} {t : Transaction}
    (ht : l.transaction? id = some t) : id ≠ ⟨l.issued + 1⟩ := by
  rintro rfl
  have := h.transaction _ t ht
  simp at this

/-- No entry is linked to itself. -/
theorem Paired.related_ne (h : l.Paired) {id : EntryId} {e : Entry} (he : l.entry? id = some e) :
    e.related ≠ some id :=
  fun hrelated => (h id e id he hrelated).1 rfl

/-- After the legs of a transfer were revised, every entry is one from before, as it was or revised on
one of the two sides. -/
theorem Paired.of_entry?_reviseLegs (h : l.Paired) {i id : EntryId} {e e₁ : Entry}
    {here there : Entry → Entry} (he : l.entry? i = some e)
    (he₁ : entry? (l.reviseLegs e here there) id = some e₁) (hhere : ∀ x, (here x).id = x.id)
    (hthere : ∀ x, (there x).id = x.id) :
    ∃ x, l.entry? id = some x ∧ (e₁ = x ∨ e₁ = here x ∨ e₁ = there x) := by
  obtain rfl : e.id = i := id_of_entry he
  rw [entry?_reviseLegs l he (h.related_ne he) (hhere e) hthere] at he₁
  obtain ⟨x, hx, rfl⟩ := Option.map_eq_some_iff.mp he₁
  refine ⟨x, hx, ?_⟩
  split
  · exact .inr (.inl rfl)
  · split
    · exact .inr (.inr rfl)
    · exact .inl rfl

/-! ## Changes that move nothing -/

/-- Only details and owners matter for what belongs to what. -/
theorem Owned.congr (h : l.Owned)
    (ht : ∀ id, (l₁.transaction? id).map Transaction.details =
      (l.transaction? id).map Transaction.details)
    (he : ∀ id, (Ledger.entry? l₁ id).map Entry.transaction = (l.entry? id).map Entry.transaction) :
    l₁.Owned where
  owner id e hid := by
    have hmap := he id
    rw [hid] at hmap
    obtain ⟨e', hid', howner'⟩ := Option.map_eq_some_iff.mp hmap.symm
    obtain ⟨owner, t, howner, hto, hmem⟩ := h.owner id e' hid'
    have hdetails := ht owner
    rw [hto] at hdetails
    obtain ⟨t', hto', hdetails'⟩ := Option.map_eq_some_iff.mp hdetails
    exact ⟨owner, t', howner' ▸ howner, hto', hdetails' ▸ hmem⟩
  detail id t hid i hi := by
    have hmap := ht id
    rw [hid] at hmap
    obtain ⟨t', hid', hdetails'⟩ := Option.map_eq_some_iff.mp hmap.symm
    obtain ⟨e, hie, howner⟩ := h.detail id t' hid' i (hdetails' ▸ hi)
    have hentry := he i
    rw [hie] at hentry
    obtain ⟨e', hie', howner'⟩ := Option.map_eq_some_iff.mp hentry
    exact ⟨e', hie', howner'.trans howner⟩
  nodup id t hid := by
    have hmap := ht id
    rw [hid] at hmap
    obtain ⟨t', hid', hdetails'⟩ := Option.map_eq_some_iff.mp hmap.symm
    exact hdetails' ▸ h.nodup id t' hid'

/-- A change that adds and removes nothing but lots gives no numbers away. -/
theorem Given.congr (h : l.Given) (hissued : l.issued ≤ l₁.issued)
    (ht : ∀ id, (l₁.transaction? id).isSome = (l.transaction? id).isSome)
    (he : ∀ id, (Ledger.entry? l₁ id).isSome = (l.entry? id).isSome)
    (hs : ∀ id, (l₁.security? id).isSome = (l.security? id).isSome)
    (hc : ∀ id, (l₁.category? id).isSome = (l.category? id).isSome) : l₁.Given := by
  have cast : ∀ {n : Int}, n ≤ l.issued → n ≤ l₁.issued := fun hn => by omega
  refine ⟨fun id t hid => ?_, fun id e hid => ?_, fun id s hid => ?_, fun id c hid => ?_⟩
  · obtain ⟨t', ht'⟩ := Option.isSome_iff_exists.mp ((ht id).symm.trans (hid ▸ rfl))
    exact cast (h.transaction id t' ht')
  · obtain ⟨e', he'⟩ := Option.isSome_iff_exists.mp ((he id).symm.trans (hid ▸ rfl))
    exact cast (h.entry id e' he')
  · obtain ⟨s', hs'⟩ := Option.isSome_iff_exists.mp ((hs id).symm.trans (hid ▸ rfl))
    exact cast (h.security id s' hs')
  · obtain ⟨c', hc'⟩ := Option.isSome_iff_exists.mp ((hc id).symm.trans (hid ▸ rfl))
    exact cast (h.category id c' hc')

/-- Entries may be revised as long as owners and links stay and legs stay opposite. -/
theorem Paired.revise (h : l.Paired) {f : EntryId → Entry → Entry}
    (hf : ∀ id, l₁.entry? id = (l.entry? id).map (f id))
    (hrelated : ∀ id e, (f id e).related = e.related)
    (hopposite : ∀ id e other o, l.entry? id = some e → e.related = some other →
      l.entry? other = some o → o.related = some id → other ≠ id →
      (f other o).amount = (f id e).amount.map (-·) ∧
        (f other o).quantity = (f id e).quantity.map (-·)) : l₁.Paired := by
  intro id e₁ other he₁ hother
  rw [hf] at he₁
  obtain ⟨e, he, rfl⟩ := Option.map_eq_some_iff.mp he₁
  rw [hrelated] at hother
  obtain ⟨hne, o, ho, hback, -, -⟩ := h id e other he hother
  obtain ⟨hamount, hquantity⟩ := hopposite id e other o he hother ho hback hne
  exact ⟨hne, f other o, by rw [hf, ho]; rfl, (hrelated other o).trans hback, hamount, hquantity⟩

/-! ## New entities -/

/-- There is nothing in a new ledger. -/
theorem sound_new (settings : Settings) : (Ledger.new settings).Sound where
  given := by constructor <;> intro _ _ h <;> cases h
  owned := by constructor <;> intro _ _ h <;> cases h
  paired _ _ _ h := by cases h

/--
An entry that is filed with its transaction belongs to it. That it is new matters twice: no
transaction lists it yet (`hfresh`), so its owner does not list it twice, and no entry that is listed
gives way to it.
-/
theorem Owned.attach (h : l.Owned) {e : Entry} {owner : TransactionId} {t : Transaction}
    (hnew : l.entry? e.id = none) (howner : e.transaction = some owner)
    (ht : l.transaction? owner = some t) : (l.attach e).Owned := by
  have hentry := entry?_attach l e
  have htransaction := transaction?_attach l howner
  have hfresh : ∀ id t, l.transaction? id = some t → e.id ∉ t.details := by
    intro id t ht hmem
    obtain ⟨e', he', -⟩ := h.detail id t ht _ hmem
    simp [hnew] at he'
  refine ⟨fun id e₁ he₁ => ?_, fun id t₁ ht₁ i hi => ?_, fun id t₁ ht₁ => ?_⟩
  · -- every entry has its owner: the new one this owner, the others theirs, which may be this one
    rw [hentry] at he₁
    split at he₁
    · rename_i hid
      obtain rfl := Option.some.inj he₁
      refine ⟨owner, { t with details := t.details ++ [e.id] }, howner, ?_, by simp [hid]⟩
      rw [htransaction, if_pos rfl, ht]
      rfl
    · obtain ⟨owner', t', howner', ht', hmem⟩ := h.owner id e₁ he₁
      refine ⟨owner', if owner' = owner then { t' with details := t'.details ++ [e.id] } else t',
        howner', ?_, ?_⟩
      · rw [htransaction, ht']
        split <;> rfl
      · split
        · exact List.mem_append_left _ hmem
        · exact hmem
  · -- what is listed is there: listed before, or the new entry
    have hold : ∀ t', l.transaction? id = some t' → i ∈ t'.details →
        ∃ e', (l.attach e).entries.get? i = some e' ∧ e'.transaction = some id := by
      intro t' ht' hi'
      obtain ⟨e', he', howner'⟩ := h.detail id t' ht' i hi'
      refine ⟨e', (hentry i).trans ?_, howner'⟩
      rw [if_neg (fun hie : i = e.id => hfresh id t' ht' (hie ▸ hi')), he']
    rw [htransaction] at ht₁
    split at ht₁
    · rename_i hid
      obtain ⟨t', ht', rfl⟩ := Option.map_eq_some_iff.mp ht₁
      rcases List.mem_append.mp hi with hi' | hi'
      · exact hold t' ht' hi'
      · obtain rfl := List.mem_singleton.mp hi'
        exact ⟨e, (hentry e.id).trans (if_pos rfl), hid ▸ howner⟩
    · exact hold t₁ ht₁ hi
  · rw [htransaction] at ht₁
    split at ht₁
    · obtain ⟨t', ht', rfl⟩ := Option.map_eq_some_iff.mp ht₁
      refine List.nodup_append.mpr ⟨h.nodup id t' ht', by simp, fun a ha b hb hab => ?_⟩
      obtain rfl := List.mem_singleton.mp hb
      exact hfresh id t' ht' (hab ▸ ha)
    · exact h.nodup id t₁ ht₁

/-- A transaction without entries may be filed under a new number. -/
theorem Owned.put_transaction (h : l.Owned) {t : Transaction} (hnew : l.transaction? t.id = none)
    (hempty : t.details = []) : Owned { l with transactions := l.transactions.put t } where
  owner id e hid := by
    obtain ⟨owner, t', howner, ht', hmem⟩ := h.owner id e hid
    refine ⟨owner, t', howner, ?_, hmem⟩
    rw [transaction?_put, if_neg (fun heq => by simp [heq, hnew] at ht'), ht']
  detail id t₁ ht₁ i hi := by
    rw [transaction?_put] at ht₁
    split at ht₁
    · obtain rfl := Option.some.inj ht₁
      simp [hempty] at hi
    · exact h.detail id t₁ ht₁ i hi
  nodup id t₁ ht₁ := by
    rw [transaction?_put] at ht₁
    split at ht₁
    · obtain rfl := Option.some.inj ht₁
      simp [hempty]
    · exact h.nodup id t₁ ht₁

theorem Given.put_transaction (h : l.Given) {t : Transaction} (hid : t.id.number ≤ l.issued) :
    Given { l with transactions := l.transactions.put t } where
  transaction id t₁ ht₁ := by
    rw [transaction?_put] at ht₁
    split at ht₁
    · rename_i heq
      exact heq ▸ hid
    · exact h.transaction id t₁ ht₁
  entry := h.entry
  security := h.security
  category := h.category

theorem Given.attach (h : l.Given) {e : Entry} {owner : TransactionId}
    (howner : e.transaction = some owner) (hid : e.id.number ≤ l.issued) : (l.attach e).Given where
  transaction id t ht := by
    rw [transaction?_attach l howner] at ht
    split at ht
    · obtain ⟨t', ht', -⟩ := Option.map_eq_some_iff.mp ht
      exact h.transaction id t' ht'
    · exact h.transaction id t ht
  entry id e₁ he₁ := by
    rw [entry?_attach] at he₁
    split at he₁
    · rename_i heq
      exact heq ▸ hid
    · exact h.entry id e₁ he₁
  security := h.security
  category := h.category

/-- Giving a number changes nothing. -/
theorem Sound.issue (h : l.Sound) (n : Nat) : Sound { l with issued := l.issued + n } where
  given := h.given.congr (Nat.le_add_right ..) (fun _ => rfl) (fun _ => rfl) (fun _ => rfl) fun _ => rfl
  owned := h.owned.congr (fun _ => rfl) fun _ => rfl
  paired := h.paired

/-- A new entry is not linked to another one, so no pair is touched. -/
theorem Sound.addEntry (h : l.Sound) {transaction : TransactionId} {amount quantity : Option Decimal}
    {category : Option CategoryId} {id : EntryId}
    (hadd : l.addEntry transaction amount quantity category = .ok (id, l₁)) : l₁.Sound := by
  obtain ⟨⟨t, ht⟩, -, rfl, rfl⟩ := addEntry_eq_ok hadd
  have hnew : l.entry? ⟨l.issued + 1⟩ = none := h.given.entry?_eq_none (by simp)
  have hissue := h.issue 1
  refine ⟨hissue.given.attach rfl (Int.le_refl _), hissue.owned.attach hnew rfl ht, ?_⟩
  intro i e other he hother
  rw [entry?_attach] at he
  split at he
  · obtain rfl := Option.some.inj he
    cases hother
  · obtain ⟨hne, o, ho, hback, hrest⟩ := h.paired i e other he hother
    refine ⟨hne, o, ?_, hback, hrest⟩
    rw [entry?_attach, if_neg fun heq => by simp [heq, hnew] at ho]
    exact ho

theorem Sound.addTransaction (h : l.Sound) (account : AccountId) (date : Date)
    (security : Option SecurityId) : (l.addTransaction account date security).2.Sound := by
  have hissue := h.issue 1
  have hnew : l.transaction? ⟨l.issued + 1⟩ = none := h.given.transaction?_eq_none (by simp)
  exact ⟨hissue.given.put_transaction (Int.le_refl _), hissue.owned.put_transaction hnew rfl, h.paired⟩

/-- A transfer pairs its two legs with each other. Both are new, so nothing that was linked before is
linked to one of them. -/
theorem Paired.attach_legs (h : l.Paired) {e o : Entry} (he : l.entry? e.id = none)
    (ho : l.entry? o.id = none) (hne : o.id ≠ e.id) (hforth : e.related = some o.id)
    (hback : o.related = some e.id) (hamount : o.amount = e.amount.map (-·))
    (hquantity : o.quantity = e.quantity.map (-·)) : ((l.attach e).attach o).Paired := by
  have hentry : ∀ i, entry? ((l.attach e).attach o) i =
      if i = o.id then some o else if i = e.id then some e else l.entry? i := by
    intro i
    rw [entry?_attach, entry?_attach]
  intro i x other hx hother
  rw [hentry] at hx
  split at hx
  · rename_i hi
    obtain rfl := Option.some.inj hx
    obtain rfl : e.id = other := Option.some.inj (hback.symm.trans hother)
    refine ⟨hi ▸ hne.symm, e, ?_, hi ▸ hforth, ?_, ?_⟩
    · rw [hentry, if_neg hne.symm, if_pos rfl]
    · rw [hamount, map_neg_map_neg]
    · rw [hquantity, map_neg_map_neg]
  · split at hx
    · rename_i hi
      obtain rfl := Option.some.inj hx
      obtain rfl : o.id = other := Option.some.inj (hforth.symm.trans hother)
      exact ⟨hi ▸ hne, o, by rw [hentry, if_pos rfl], hi ▸ hback, hamount, hquantity⟩
    · obtain ⟨hother', y, hy, hrest⟩ := h i x other hx hother
      refine ⟨hother', y, ?_, hrest⟩
      rw [hentry, if_neg fun heq => by simp [heq, ho] at hy, if_neg fun heq => by simp [heq, he] at hy]
      exact hy

/--
A transfer adds the transaction of the other side first, without entries, and then files both legs, so
soundness is kept by three writes one after the other. Only the pairing is looked at for both legs at
once: between the two writes there is a leg without its other one.
-/
theorem Sound.addTransfer (h : l.Sound) {transaction : TransactionId} {otherAccount : AccountId}
    {amount quantity : Option Decimal} {legs : EntryId × EntryId}
    (hadd : l.addTransfer transaction otherAccount amount quantity = .ok (legs, l₁)) : l₁.Sound := by
  obtain ⟨t, q, other, e, o, ht, -, hother, he, ho, -, rfl⟩ := addTransfer_eq_ok hadd
  have hissue := h.issue 3
  have hnew : l.transaction? other.id = none := h.given.transaction?_eq_none (by simp [hother])
  have hput := hissue.owned.put_transaction hnew (by rw [hother])
  have hnewe : l.entry? e.id = none := h.given.entry?_eq_none (by simp [he])
  have hnewo : l.entry? o.id = none := h.given.entry?_eq_none (by simp [ho])
  have hne : o.id ≠ e.id := by simp [he, ho]
  have hold : transaction ≠ other.id := by
    rintro rfl
    simp [ht] at hnew
  have howner : e.transaction = some transaction := by rw [he]
  have howner' : o.transaction = some other.id := by rw [ho, hother]
  refine ⟨?_, ?_, ?_⟩
  · refine ((hissue.given.put_transaction ?_).attach howner ?_).attach howner' ?_ <;>
      simp only [hother, he, ho, issued_attach] <;> omega
  · refine (hput.attach hnewe howner (t := t) ?_).attach ?_ howner' (t := other) ?_
    · rw [transaction?_put, if_neg hold]
      exact ht
    · rw [entry?_attach, if_neg hne]
      exact hnewo
    · rw [transaction?_attach _ howner, if_neg hold.symm, transaction?_put, if_pos rfl]
  · exact Paired.attach_legs h.paired hnewe hnewo hne (by rw [he, ho]) (by rw [he, ho])
      (by rw [he, ho]) (by rw [he, ho])

/-! ## Revised and removed entities -/

/-- Entries may be revised in all but owner and link, if the legs of transfers stay opposite. -/
theorem Sound.revise (h : l.Sound) (hl₁ : l₁ = { l with entries := l₁.entries })
    {f : EntryId → Entry → Entry} (hf : ∀ id, l₁.entry? id = (l.entry? id).map (f id))
    (howner : ∀ id e, (f id e).transaction = e.transaction)
    (hrelated : ∀ id e, (f id e).related = e.related)
    (hopposite : ∀ id e other o, l.entry? id = some e → e.related = some other →
      l.entry? other = some o → o.related = some id → other ≠ id →
      (f other o).amount = (f id e).amount.map (-·) ∧
        (f other o).quantity = (f id e).quantity.map (-·)) : l₁.Sound where
  given := by
    refine h.given.congr ?_ (fun id => ?_) (fun id => ?_) (fun id => ?_) fun id => ?_
    · rw [hl₁]
    · rw [hl₁]
      rfl
    · rw [hf, Option.isSome_map]
    · rw [hl₁]
      rfl
    · rw [hl₁]
      rfl
  owned := by
    refine h.owned.congr (fun id => ?_) fun id => ?_
    · rw [hl₁]
      rfl
    · rw [hf, Option.map_map]
      exact congrArg (Option.map · _) (funext fun e => howner id e)
  paired := h.paired.revise hf hrelated hopposite

/--
Both legs of a transfer may be revised together, if what is written there is opposite to what is
written here whenever it was before.

For a link from `id` to `other` there are three cases, by which of the two the revised entry `e` is:
`id` itself, `other`, or neither. In the second the link is read backwards, and negating twice gives
the amount back; in the third no side is revised, because the other leg of `e` is linked to `e` only.
-/
theorem Sound.reviseLegs (h : l.Sound) {e : Entry} {here there : Entry → Entry}
    (he : l.entry? e.id = some e)
    (hhere : ∀ x, (here x).id = x.id ∧ (here x).transaction = x.transaction ∧
      (here x).related = x.related)
    (hthere : ∀ x, (there x).id = x.id ∧ (there x).transaction = x.transaction ∧
      (there x).related = x.related)
    (hamount : ∀ x y, y.amount = x.amount.map (-·) → (there y).amount = (here x).amount.map (-·))
    (hquantity : ∀ x y, y.quantity = x.quantity.map (-·) →
      (there y).quantity = (here x).quantity.map (-·)) : (l.reviseLegs e here there).Sound := by
  refine h.revise (l.reviseLegs_eq e here there)
    (entry?_reviseLegs l he (h.paired.related_ne he) (hhere e).1 fun o => (hthere o).1)
    (fun id x => ?_) (fun id x => ?_) fun id x other o hx hother ho hback hneq => ?_
  · split
    · exact (hhere x).2.1
    · split
      · exact (hthere x).2.1
      · rfl
  · split
    · exact (hhere x).2.2
    · split
      · exact (hthere x).2.2
      · rfl
  · obtain ⟨-, o', ho', -, hoamount, hoquantity⟩ := h.paired id x other hx hother
    obtain rfl := Option.some.inj (ho.symm.trans ho')
    by_cases hid : id = e.id
    · obtain rfl : e = x := Option.some.inj (he.symm.trans (hid ▸ hx))
      have hoe : other ≠ e.id := hid ▸ hneq
      simp only [hid, hother, hoe, if_true, if_false]
      exact ⟨hamount e o hoamount, hquantity e o hoquantity⟩
    · by_cases hrel : e.related = some id
      · obtain ⟨-, x', hx', hxback, -, -⟩ := h.paired e.id e id he hrel
        obtain rfl := Option.some.inj (hx.symm.trans hx')
        obtain rfl : e.id = other := Option.some.inj (hxback.symm.trans hother)
        obtain rfl : e = o := Option.some.inj (he.symm.trans ho)
        simp only [hid, hrel, if_true, if_false]
        constructor
        · rw [hamount e x (by rw [hoamount, map_neg_map_neg]), map_neg_map_neg]
        · rw [hquantity e x (by rw [hoquantity, map_neg_map_neg]), map_neg_map_neg]
      · have hoe : other ≠ e.id := by
          rintro rfl
          obtain rfl : e = o := Option.some.inj (he.symm.trans ho)
          exact hrel hback
        have hoo : e.related ≠ some other := by
          intro hrel'
          obtain ⟨-, o', ho', hoback, -, -⟩ := h.paired e.id e other he hrel'
          obtain rfl := Option.some.inj (ho.symm.trans ho')
          exact hid (Option.some.inj (hback.symm.trans hoback))
        simp only [hid, hrel, hoe, hoo, if_false]
        exact ⟨hoamount, hoquantity⟩

/-- The amount is set here and there; shares stay, and with them that they are opposite. -/
theorem Sound.setAmount (h : l.Sound) {id : EntryId} {amount previous : Option Decimal}
    (hset : l.setAmount id amount = .ok (previous, l₁)) : l₁.Sound := by
  obtain ⟨e, he, -, rfl⟩ := setAmount_eq_ok hset
  exact h.reviseLegs (id_of_entry he ▸ he) (fun _ => ⟨rfl, rfl, rfl⟩) (fun _ => ⟨rfl, rfl, rfl⟩)
    (fun _ _ _ => rfl) fun _ _ hquantity => hquantity

theorem Sound.setQuantity (h : l.Sound) {id : EntryId} {quantity previous : Option Decimal}
    (hset : l.setQuantity id quantity = .ok (previous, l₁)) : l₁.Sound := by
  obtain ⟨e, he, -, rfl⟩ := setQuantity_eq_ok hset
  exact h.reviseLegs (id_of_entry he ▸ he) (fun _ => ⟨rfl, rfl, rfl⟩) (fun _ => ⟨rfl, rfl, rfl⟩)
    (fun _ _ hamount => hamount) fun _ _ _ => rfl

/-- What a session does not compare between the legs may be set in one of them. -/
theorem Sound.put_entry (h : l.Sound) {id : EntryId} {e : Entry} (he : l.entry? id = some e)
    (category : Option CategoryId) (memo : Option String) :
    Sound { l with entries := l.entries.put { e with category, memo } } := by
  obtain rfl : e.id = id := id_of_entry he
  refine h.revise rfl (f := fun i x => if i = e.id then { x with category, memo } else x) (fun i => ?_)
    (fun i x => ?_) (fun i x => ?_) fun i x other o hx hother ho _ _ => ?_
  · rw [entry?_put]
    by_cases hi : i = e.id
    · simp only [hi, he, if_true, Option.map_some]
    · simp only [hi, if_false]
      exact Option.map_id'.symm
  · split <;> rfl
  · split <;> rfl
  · obtain ⟨-, o', ho', -, hamount, hquantity⟩ := h.paired i x other hx hother
    obtain rfl := Option.some.inj (ho.symm.trans ho')
    constructor
    · split <;> split <;> exact hamount
    · split <;> split <;> exact hquantity

/-- A transaction may be revised in all but its entries. -/
theorem Sound.revise_transaction (h : l.Sound) {id : TransactionId} {t : Transaction}
    (ht : l.transaction? id = some t) (account : AccountId) (date : Date)
    (security : Option SecurityId) (memo : Option String) :
    Sound { l with transactions := l.transactions.put { t with account, date, security, memo } } := by
  obtain rfl : t.id = id := id_of_transaction ht
  have hput := transaction?_put l { t with account, date, security, memo }
  refine ⟨h.given.congr (Nat.le_refl _) (fun i => ?_) (fun _ => rfl) (fun _ => rfl) fun _ => rfl,
    h.owned.congr (fun i => ?_) fun _ => rfl, h.paired⟩
  · rw [hput]
    split
    · rename_i hi
      rw [show i = t.id from hi, ht]
      rfl
    · rfl
  · rw [hput]
    split
    · rename_i hi
      rw [show i = t.id from hi, ht]
      rfl
    · rfl

/-- A transaction may go when no entry names it as its owner. -/
theorem Sound.drop_transaction (h : l.Sound) {id : TransactionId}
    (hfree : ∀ entry e, l.entry? entry = some e → e.transaction ≠ some id) :
    Sound { l with transactions := l.transactions.erase id } := by
  have hold : ∀ i t, { l with transactions := l.transactions.erase id }.transaction? i = some t →
      l.transaction? i = some t := by
    intro i t ht
    rw [transaction?_erase] at ht
    split at ht
    · cases ht
    · exact ht
  refine ⟨⟨fun i t ht => h.given.transaction i t (hold i t ht), h.given.entry, h.given.security,
    h.given.category⟩, ⟨fun i e he => ?_, fun i t ht => h.owned.detail i t (hold i t ht),
    fun i t ht => h.owned.nodup i t (hold i t ht)⟩, h.paired⟩
  obtain ⟨owner, t, howner, ht, hmem⟩ := h.owned.owner i e he
  refine ⟨owner, t, howner, ?_, hmem⟩
  rw [transaction?_erase, if_neg (fun heq : owner = id => hfree i e he (heq ▸ howner))]
  exact ht

/-- Lots play no part in soundness. -/
theorem Sound.with_lots (h : l.Sound) (lots : Register Lot) : Sound { l with lots } :=
  ⟨h.given.congr (Nat.le_refl _) (fun _ => rfl) (fun _ => rfl) (fun _ => rfl) fun _ => rfl,
    h.owned.congr (fun _ => rfl) fun _ => rfl, h.paired⟩

/-! Unlinking an entry leaves all else that is known of it. -/

@[simp] theorem transaction_unlinked (o : Entry) (id : EntryId) :
    (unlinked o id).transaction = o.transaction := by
  rw [unlinked]
  split <;> rfl

@[simp] theorem amount_unlinked (o : Entry) (id : EntryId) : (unlinked o id).amount = o.amount := by
  rw [unlinked]
  split <;> rfl

@[simp] theorem quantity_unlinked (o : Entry) (id : EntryId) :
    (unlinked o id).quantity = o.quantity := by
  rw [unlinked]
  split <;> rfl

@[simp] theorem category_unlinked (o : Entry) (id : EntryId) :
    (unlinked o id).category = o.category := by
  rw [unlinked]
  split <;> rfl

theorem related_unlinked_eq_some {o : Entry} {id other : EntryId} :
    (unlinked o id).related = some other ↔ o.related = some other ∧ other ≠ id := by
  rw [unlinked]
  split
  · rename_i h
    simp [h, eq_comm]
  · rename_i h
    exact ⟨fun ho => ⟨ho, fun hid => h (hid ▸ ho)⟩, And.left⟩

/-- An entry is linked to another one if that one is linked to it. -/
theorem Paired.related_iff (h : l.Paired) {id i : EntryId} {e x : Entry} (he : l.entry? id = some e)
    (hx : l.entry? i = some x) : x.related = some id ↔ e.related = some i := by
  have hback {id i : EntryId} {e x : Entry} (he : l.entry? id = some e) (hx : l.entry? i = some x)
      (hrelated : x.related = some id) : e.related = some i := by
    obtain ⟨-, o, ho, hlinked, -⟩ := h i x id hx hrelated
    rwa [Option.some.inj (he.symm.trans ho)]
  exact ⟨hback he hx, hback hx he⟩

/-- Where legs are paired, removing an entry unlinks whatever is linked to it: the removal only looks
at the leg that the entry names, and no other entry is linked back to it. -/
theorem Paired.entry?_removeEntry (h : l.Paired) {id : EntryId} {removed : Entry}
    (hremove : l.removeEntry id = .ok (removed, l₁)) (i : EntryId) :
    l₁.entry? i = if i = id then none else (l.entry? i).map (unlinked · id) := by
  obtain ⟨e, he, -, -, hentry, -, -⟩ := removeEntry_eq_ok hremove
  rw [hentry]
  split
  · rfl
  · split
    · rfl
    · rename_i hrelated
      cases hi : l.entry? i with
      | none => rfl
      | some x =>
        have hx : x.related ≠ some id := mt (h.related_iff he hi).mp hrelated
        simp [unlinked, hx]

/-- An entry that is left when another one was removed was there before, and is linked to it no more. -/
theorem Paired.of_entry?_removeEntry (h : l.Paired) {id i : EntryId} {removed x : Entry}
    (hremove : l.removeEntry id = .ok (removed, l₁)) (hx : l₁.entry? i = some x) :
    i ≠ id ∧ ∃ y, l.entry? i = some y ∧ x = unlinked y id := by
  rw [h.entry?_removeEntry hremove] at hx
  split at hx
  · cases hx
  · rename_i hi
    obtain ⟨y, hy, rfl⟩ := Option.map_eq_some_iff.mp hx
    exact ⟨hi, y, hy, rfl⟩

/-- The owner of an entry that was removed does not list it any more, and the others are as they were. -/
theorem of_transaction?_removeEntry {id : EntryId} {e removed : Entry} (he : l.entry? id = some e)
    (hremove : l.removeEntry id = .ok (removed, l₁)) {i : TransactionId} {t₁ : Transaction}
    (ht₁ : l₁.transaction? i = some t₁) :
    ∃ t, l.transaction? i = some t ∧
      t₁ = if e.transaction = some i then withoutDetail t id else t := by
  obtain ⟨e', he', -, ht, -⟩ := removeEntry_eq_ok hremove
  obtain rfl := Option.some.inj (he.symm.trans he')
  rw [ht] at ht₁
  split at ht₁
  · rename_i howner
    obtain ⟨t, ht', rfl⟩ := Option.map_eq_some_iff.mp ht₁
    exact ⟨t, ht', (if_pos howner).symm⟩
  · rename_i hother
    exact ⟨t₁, ht₁, (if_neg hother).symm⟩

theorem Given.removeEntry (h : l.Given) (hpaired : l.Paired) {id : EntryId} {removed : Entry}
    (hremove : l.removeEntry id = .ok (removed, l₁)) : l₁.Given := by
  obtain ⟨e, he, -, -, -, -, hl₁⟩ := removeEntry_eq_ok hremove
  have hissued : l₁.issued = l.issued := by rw [hl₁]
  refine ⟨fun i t₁ ht₁ => ?_, fun i x hx => ?_, fun i s hs => ?_, fun i c hc => ?_⟩
  · obtain ⟨t, ht, -⟩ := of_transaction?_removeEntry he hremove ht₁
    exact hissued ▸ h.transaction i t ht
  · obtain ⟨-, y, hy, -⟩ := hpaired.of_entry?_removeEntry hremove hx
    exact hissued ▸ h.entry i y hy
  · rw [hl₁] at hs
    exact hissued ▸ h.security i s hs
  · rw [hl₁] at hc
    exact hissued ▸ h.category i c hc

/--
Removing an entry takes it off its owner's list, so what is left is owned and listed as it was. One
filter is enough, because the entry was on no other list: a listed entry names who lists it.
-/
theorem Owned.removeEntry (h : l.Owned) (hpaired : l.Paired) {id : EntryId} {removed : Entry}
    (hremove : l.removeEntry id = .ok (removed, l₁)) : l₁.Owned := by
  have hentry := hpaired.entry?_removeEntry hremove
  obtain ⟨e, he, -, ht, -⟩ := removeEntry_eq_ok hremove
  refine ⟨fun i x hx => ?_, fun i t₁ ht₁ j hj => ?_, fun i t₁ ht₁ => ?_⟩
  · obtain ⟨hi, y, hy, rfl⟩ := hpaired.of_entry?_removeEntry hremove hx
    obtain ⟨owner, t, howner, ht', hmem⟩ := h.owner i y hy
    refine ⟨owner, if e.transaction = some owner then withoutDetail t id else t,
      (transaction_unlinked y id).trans howner, ?_, ?_⟩
    · rw [ht, ht']
      split <;> rfl
    · split
      · exact List.mem_filter.mpr ⟨hmem, by simpa using hi⟩
      · exact hmem
  · obtain ⟨t, ht', rfl⟩ := of_transaction?_removeEntry he hremove ht₁
    -- no other transaction than its owner listed the entry
    have hmem : j ∈ t.details ∧ j ≠ id := by
      split at hj
      · obtain ⟨hj, hne⟩ := List.mem_filter.mp hj
        exact ⟨hj, by simpa using hne⟩
      · rename_i hother
        refine ⟨hj, ?_⟩
        rintro rfl
        obtain ⟨e', he', howner⟩ := h.detail i t ht' _ hj
        obtain rfl := Option.some.inj (he.symm.trans he')
        exact hother howner
    obtain ⟨y, hy, howner⟩ := h.detail i t ht' j hmem.1
    refine ⟨unlinked y id, ?_, (transaction_unlinked y id).trans howner⟩
    rw [hentry, if_neg hmem.2, hy]
    rfl
  · obtain ⟨t, ht', rfl⟩ := of_transaction?_removeEntry he hremove ht₁
    have hnodup := h.nodup i t ht'
    split
    · exact hnodup.filter _
    · exact hnodup

/-- A link that is left after a removal is one from before, between two entries that are left: the link
to the removed one was taken out, and so was the entry that it went out from. -/
theorem Paired.removeEntry (h : l.Paired) {id : EntryId} {removed : Entry}
    (hremove : l.removeEntry id = .ok (removed, l₁)) : l₁.Paired := by
  intro i x other hx hother
  obtain ⟨hi, y, hy, rfl⟩ := h.of_entry?_removeEntry hremove hx
  obtain ⟨hother', hne⟩ := related_unlinked_eq_some.mp hother
  obtain ⟨hself, o, ho, hback, hamount, hquantity⟩ := h i y other hy hother'
  refine ⟨hself, unlinked o id, ?_, related_unlinked_eq_some.mpr ⟨hback, hi⟩, ?_, ?_⟩
  · rw [h.entry?_removeEntry hremove, if_neg hne, ho]
    rfl
  · rw [amount_unlinked, amount_unlinked, hamount]
  · rw [quantity_unlinked, quantity_unlinked, hquantity]

theorem Sound.removeEntry (h : l.Sound) {id : EntryId} {removed : Entry}
    (hremove : l.removeEntry id = .ok (removed, l₁)) : l₁.Sound :=
  ⟨h.given.removeEntry h.paired hremove, h.owned.removeEntry h.paired hremove,
    h.paired.removeEntry hremove⟩

/-! ## Elementary changes -/

/-- The step: every elementary change keeps a ledger sound. -/
theorem Change.sound (h : l.Sound) (hchange : Change l l₁) : l₁.Sound := by
  cases hchange with
  | addSecurity name =>
    have hissue := h.issue 1
    refine ⟨⟨hissue.given.transaction, hissue.given.entry, fun id s hs => ?_, hissue.given.category⟩,
      h.owned.congr (fun _ => rfl) fun _ => rfl, h.paired⟩
    rw [security?_addSecurity] at hs
    split at hs
    · rename_i hid
      exact hid ▸ Int.le_refl _
    · exact hissue.given.security id s hs
  | addCategory code affectsBalance action =>
    have hissue := h.issue 1
    refine ⟨⟨hissue.given.transaction, hissue.given.entry, hissue.given.security, fun id c hc => ?_⟩,
      h.owned.congr (fun _ => rfl) fun _ => rfl, h.paired⟩
    rw [category?_addCategory] at hc
    split at hc
    · rename_i hid
      exact hid ▸ Int.le_refl _
    · exact hissue.given.category id c hc
  | @setHistory id s hs history =>
    refine ⟨⟨h.given.transaction, h.given.entry, fun i s' hs' => ?_, h.given.category⟩,
      h.owned.congr (fun _ => rfl) fun _ => rfl, h.paired⟩
    rw [security?_withHistory] at hs'
    split at hs'
    · rename_i hi
      exact h.given.security i s (hi.trans (id_of_security hs) ▸ hs)
    · exact h.given.security i s' hs'
  | addTransaction account date security => exact h.addTransaction account date security
  | reviseTransaction ht account date security memo =>
    exact h.revise_transaction ht account date security memo
  | dropTransaction hfree => exact h.drop_transaction hfree
  | addEntry hadd => exact h.addEntry hadd
  | addTransfer hadd => exact h.addTransfer hadd
  | setAmount hset => exact h.setAmount hset
  | setQuantity hset => exact h.setQuantity hset
  | @setCategory _ _ category _ hset =>
    obtain ⟨-, e, he, -, rfl⟩ := setCategory_eq_ok hset
    exact h.put_entry he category e.memo
  | @setEntryMemo _ _ memo _ hset =>
    obtain ⟨e, he, rfl⟩ := setEntryMemo_eq_ok hset
    exact h.put_entry he e.category memo
  | removeEntry hremove => exact h.removeEntry hremove
  | insertLot hinsert =>
    obtain ⟨-, -, -, rfl⟩ := insertLot_eq_ok hinsert
    exact h.with_lots _
  | resizeLot | dropLot => exact h.with_lots _

/-- The run: so does any number of changes. -/
theorem Changed.sound (h : l.Sound) (hchanged : Changed l l₁) : l₁.Sound := by
  induction hchanged with
  | refl => exact h
  | tail _ hchange ih => exact hchange.sound ih

/-- What every change keeps: the settings stay, no number is taken back, and a security is only added or
given another history of splits. -/
structure Frame (l l₁ : Ledger) : Prop where
  settings : l₁.settings = l.settings
  issued : l.issued ≤ l₁.issued
  securities : l₁.securities = l.securities ∨ (∃ name, l₁ = (l.addSecurity name).2) ∨
    ∃ id s history, l.security? id = some s ∧ l₁ = l.withHistory s history

/-- Most changes leave settings and securities as they are by definition; the cases written out are
those that go through an operation, whose result has to be read off first. -/
theorem Change.frame (hchange : Change l l₁) : Frame l l₁ := by
  cases hchange with
  | addSecurity name => exact ⟨rfl, Nat.le_succ _, .inr (.inl ⟨name, rfl⟩)⟩
  | setHistory hs history => exact ⟨rfl, Nat.le_refl _, .inr (.inr ⟨_, _, history, hs, rfl⟩)⟩
  | addEntry hadd =>
    obtain ⟨-, -, -, rfl⟩ := addEntry_eq_ok hadd
    exact ⟨rfl, Nat.le_succ _, .inl rfl⟩
  | addTransfer hadd =>
    obtain ⟨t, q, other, e, o, -, -, -, -, -, -, rfl⟩ := addTransfer_eq_ok hadd
    exact ⟨rfl, Nat.le_add_right _ 3, .inl rfl⟩
  | setAmount hset =>
    obtain ⟨e, -, -, rfl⟩ := setAmount_eq_ok hset
    rw [reviseLegs_eq]
    exact ⟨rfl, Nat.le_refl _, .inl rfl⟩
  | setQuantity hset =>
    obtain ⟨e, -, -, rfl⟩ := setQuantity_eq_ok hset
    rw [reviseLegs_eq]
    exact ⟨rfl, Nat.le_refl _, .inl rfl⟩
  | setCategory hset =>
    obtain ⟨-, e, -, -, rfl⟩ := setCategory_eq_ok hset
    exact ⟨rfl, Nat.le_refl _, .inl rfl⟩
  | setEntryMemo hset =>
    obtain ⟨e, -, rfl⟩ := setEntryMemo_eq_ok hset
    exact ⟨rfl, Nat.le_refl _, .inl rfl⟩
  | removeEntry hremove =>
    obtain ⟨e, -, -, -, -, -, hl₁⟩ := removeEntry_eq_ok hremove
    rw [hl₁]
    exact ⟨rfl, Nat.le_refl _, .inl rfl⟩
  | insertLot hinsert =>
    obtain ⟨-, -, -, rfl⟩ := insertLot_eq_ok hinsert
    exact ⟨rfl, Nat.le_refl _, .inl rfl⟩
  | addCategory | addTransaction => exact ⟨rfl, Nat.le_succ _, .inl rfl⟩
  | reviseTransaction | dropTransaction | resizeLot | dropLot =>
    exact ⟨rfl, Nat.le_refl _, .inl rfl⟩

/-- Numbers are never taken back, however many changes there are. -/
theorem Changed.issued_le (hchanged : Changed l l₁) : l.issued ≤ l₁.issued := by
  induction hchanged with
  | refl => exact Nat.le_refl _
  | tail _ hchange ih => exact Nat.le_trans ih hchange.frame.issued

/-- An entry belongs to the transaction that it belonged to before, or else it is new: no change moves
an entry to another transaction. -/
theorem Change.owner (h : l.Sound) (hchange : Change l l₁) {id : EntryId} {e₁ : Entry}
    (he₁ : l₁.entry? id = some e₁) :
    (∃ e, l.entry? id = some e ∧ e₁.transaction = e.transaction) ∨ l.issued < id.number := by
  cases hchange with
  | addEntry hadd =>
    obtain ⟨-, -, rfl, rfl⟩ := addEntry_eq_ok hadd
    rw [entry?_attach] at he₁
    split at he₁
    · rename_i hid
      exact .inr (by rw [hid]; simp)
    · exact .inl ⟨e₁, he₁, rfl⟩
  | addTransfer hadd =>
    obtain ⟨t, q, other, e, o, -, -, -, he, ho, -, rfl⟩ := addTransfer_eq_ok hadd
    rw [entry?_attach, entry?_attach] at he₁
    split at he₁
    · rename_i hid
      exact .inr (by rw [hid, ho]; simp)
    · split at he₁
      · rename_i hid
        exact .inr (by rw [hid, he]; simp)
      · exact .inl ⟨e₁, he₁, rfl⟩
  | setAmount hset =>
    obtain ⟨e, he, -, rfl⟩ := setAmount_eq_ok hset
    obtain ⟨x, hx, rfl | rfl | rfl⟩ :=
      h.paired.of_entry?_reviseLegs he he₁ (fun _ => rfl) fun _ => rfl
    all_goals exact .inl ⟨_, hx, rfl⟩
  | setQuantity hset =>
    obtain ⟨e, he, -, rfl⟩ := setQuantity_eq_ok hset
    obtain ⟨x, hx, rfl | rfl | rfl⟩ :=
      h.paired.of_entry?_reviseLegs he he₁ (fun _ => rfl) fun _ => rfl
    all_goals exact .inl ⟨_, hx, rfl⟩
  | setCategory hset =>
    obtain ⟨-, e, he, -, rfl⟩ := setCategory_eq_ok hset
    obtain hx | ⟨hx, rfl⟩ := of_entry?_put he he₁ rfl
    all_goals exact .inl ⟨_, hx, rfl⟩
  | setEntryMemo hset =>
    obtain ⟨e, he, rfl⟩ := setEntryMemo_eq_ok hset
    obtain hx | ⟨hx, rfl⟩ := of_entry?_put he he₁ rfl
    all_goals exact .inl ⟨_, hx, rfl⟩
  | removeEntry hremove =>
    obtain ⟨-, y, hy, rfl⟩ := h.paired.of_entry?_removeEntry hremove he₁
    exact .inl ⟨y, hy, transaction_unlinked y _⟩
  | insertLot hinsert =>
    obtain ⟨-, -, -, rfl⟩ := insertLot_eq_ok hinsert
    exact .inl ⟨e₁, he₁, rfl⟩
  | addSecurity | addCategory | setHistory | addTransaction | reviseTransaction | dropTransaction
  | resizeLot | dropLot => exact .inl ⟨e₁, he₁, rfl⟩

/-- An entry that comes in somewhere along the changes has a number that was not given when they began,
since numbers only grow. -/
theorem Changed.owner (h : l.Sound) (hchanged : Changed l l₁) {id : EntryId} {e₁ : Entry}
    (he₁ : l₁.entry? id = some e₁) :
    (∃ e, l.entry? id = some e ∧ e₁.transaction = e.transaction) ∨ l.issued < id.number := by
  induction hchanged generalizing e₁ with
  | refl => exact .inl ⟨e₁, he₁, rfl⟩
  | @tail l₂ l₃ hbefore hchange ih =>
    rcases hchange.owner (Changed.sound h hbefore) he₁ with ⟨e₂, he₂, hsame⟩ | hnew
    · rcases ih he₂ with ⟨e, he, hsame'⟩ | hnew
      · exact .inl ⟨e, he, hsame.trans hsame'⟩
      · exact .inr hnew
    · have := Changed.issued_le hbefore
      exact .inr (by omega)

end Ledger

end Lotbook
