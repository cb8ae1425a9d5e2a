/-
# Lotbook.Proofs.LotTexts -- lots survive being written as JSON

An object whose members are numbers is taken apart into tokens one by one (`Json.Lexes`), so that a lot is
read back from its text if its four numbers are (`Json.ofText?_toText_lot`). Those of the entries are within
64 bits. The shares of lots that come of matching have at most sixteen places, and survive if they have few
digits (`Ledger.lots_survive`). With more digits they may come back changed (`Ledger.exists_changed`).
-/
import Lotbook.Json.Ledger
import Lotbook.Proofs.DecimalTexts
import Lotbook.Proofs.Integrity
import Lotbook.Proofs.LotScales

namespace Lotbook

namespace Json

/-! ## Objects of numbers -/

/-- The tokens of a text, each of which leaves the rest of the text to those after it. -/
inductive Lexes : List Char → List Token → Prop where
  | nil : Lexes [] []
  | cons {c : Char} {cs rest : List Char} {t : Token} {ts : List Token} (hspace : isSpace c = false)
      (htoken : token? c cs = some (t, rest)) (hrest : rest.length ≤ cs.length) (h : Lexes rest ts) :
      Lexes (c :: cs) (t :: ts)

variable {cs rest : List Char} {ts : List Token}

theorem Lexes.tokensFrom?_eq (h : Lexes cs ts) (reversed : List Token) {fuel : Nat}
    (hfuel : cs.length ≤ fuel) : tokensFrom? reversed fuel cs = some (reversed.reverse ++ ts) := by
  induction h generalizing reversed fuel with
  | nil =>
    rw [List.append_nil]
    cases fuel <;> rfl
  | @cons c cs rest t ts hspace htoken hrest h ih =>
    cases fuel with
    | zero => cases hfuel
    | succ fuel =>
      have hleft : rest.length ≤ fuel := hrest.trans (Nat.le_of_succ_le_succ hfuel)
      rw [tokensFrom?, hspace, if_neg (by decide), htoken]
      show tokensFrom? (t :: reversed) fuel rest = _
      rw [ih (t :: reversed) hleft, List.reverse_cons, List.append_assoc]
      rfl

theorem Lexes.tokens?_eq (h : Lexes cs ts) : tokens? cs = some ts := h.tokensFrom?_eq [] (Nat.le_refl _)

/-- Whether a text stands for itself between quotes. -/
def IsName (name : List Char) : Prop :=
  quoted name = '"' :: (name ++ ['"']) ∧
    ∀ rest, token? '"' (name ++ '"' :: rest) = some (.string (some name), rest)

/-- A member whose value survives is a name, a colon and a number. -/
theorem Lexes.member {α : Type} [Form α] {a : α} {name : List Char} (hname : IsName name) (ha : Survives a)
    (hrest : EndsNumber rest) (h : Lexes rest ts) :
    ∃ lit, read? (.number lit) = some a ∧
      Lexes (quoted name ++ ':' :: write a ++ rest) (.string (some name) :: .colon :: .number lit :: ts) := by
  obtain ⟨hquoted, hstring⟩ := hname
  obtain ⟨c, cs, lit, hwrite, hspace, htoken, hread⟩ := ha rest hrest
  have hnumber : Lexes (write a ++ rest) (.number lit :: ts) := by
    rw [hwrite]
    exact .cons hspace htoken (by simp) h
  have hcolon : Lexes (':' :: (write a ++ rest)) (.colon :: .number lit :: ts) :=
    .cons rfl rfl (Nat.le_refl _) hnumber
  refine ⟨lit, hread, ?_⟩
  have htext : quoted name ++ ':' :: write a ++ rest = '"' :: (name ++ '"' :: ':' :: (write a ++ rest)) := by
    rw [hquoted]
    simp
  rw [htext]
  refine .cons rfl (hstring _) ?_ hcolon
  simp only [List.length_append, List.length_cons]
  omega

theorem endsNumber_comma (cs : List Char) : EndsNumber (',' :: cs) := by
  rintro c ⟨⟩
  exact .inl rfl

theorem endsNumber_brace (cs : List Char) : EndsNumber ('\x7d' :: cs) := by
  rintro c ⟨⟩
  exact .inr rfl

theorem survives_identity {kind : IdentityKind} {id : Identity kind} (h : Survives id.number) :
    Survives id := by
  intro rest hrest
  obtain ⟨c, cs, lit, hwrite, hspace, htoken, hread⟩ := h rest hrest
  refine ⟨c, cs, lit, hwrite, hspace, htoken, ?_⟩
  show (read? (.number lit)).map Identity.mk = some id
  rw [hread]
  rfl

/-- The names of the fields of a lot. -/
theorem isName_field (field : String)
    (h : field ∈ ["purchase", "sale", "purchaseShares", "adjustedShares"]) : IsName field.toList := by
  simp only [List.mem_cons, List.not_mem_nil, or_false] at h
  rcases h with rfl | rfl | rfl | rfl <;> exact ⟨rfl, fun _ => rfl⟩

/-- A lot whose parts survive does. -/
theorem ofText?_toText_lot {lot : Lot} (hpurchase : Survives lot.purchase) (hsale : Survives lot.sale)
    (hpurchaseShares : Survives lot.purchaseShares) (hadjustedShares : Survives lot.adjustedShares) :
    ofText? (toText lot) = some lot := by
  have hend : Lexes ['\x7d'] [.endObject] := .cons rfl rfl (Nat.le_refl _) .nil
  obtain ⟨adjusted, hadjusted, hlexes⟩ := Lexes.member (isName_field "adjustedShares" (by decide))
    hadjustedShares (endsNumber_brace []) hend
  obtain ⟨shares, hshares, hlexes⟩ := Lexes.member (isName_field "purchaseShares" (by decide))
    hpurchaseShares (endsNumber_comma _) (.cons rfl rfl (Nat.le_refl _) hlexes)
  obtain ⟨sale, hsale, hlexes⟩ := Lexes.member (isName_field "sale" (by decide))
    hsale (endsNumber_comma _) (.cons rfl rfl (Nat.le_refl _) hlexes)
  obtain ⟨purchase, hpurchase, hlexes⟩ := Lexes.member (isName_field "purchase" (by decide))
    hpurchase (endsNumber_comma _) (.cons rfl rfl (Nat.le_refl _) hlexes)
  have hwrite : write lot = '\x7b' :: (quoted "purchase".toList ++ ':' :: write lot.purchase ++
      ',' :: (quoted "sale".toList ++ ':' :: write lot.sale ++
      ',' :: (quoted "purchaseShares".toList ++ ':' :: write lot.purchaseShares ++
      ',' :: (quoted "adjustedShares".toList ++ ':' :: write lot.adjustedShares ++ ['\x7d'])))) := by
    show objectChars _ = _
    simp [objectChars, List.intercalate, List.intersperse]
  have hobject := (Lexes.cons (c := '\x7b') (t := .beginObject) rfl rfl (Nat.le_refl _) hlexes).tokens?_eq
  rw [← hwrite] at hobject
  unfold ofText? toText ofChars?
  rw [String.toList_ofList, hobject]
  show (read? (Json.object [(some "purchase".toList, .number purchase), (some "sale".toList, .number sale),
    (some "purchaseShares".toList, .number shares),
    (some "adjustedShares".toList, .number adjusted)]) : Option Lot) = some lot
  show (read? (.number purchase)).bind _ = _
  rw [hpurchase, Option.bind_some]
  show (read? (.number sale)).bind _ = _
  rw [hsale, Option.bind_some]
  show (read? (.number shares)).bind _ = _
  rw [hshares, Option.bind_some]
  show (read? (.number adjusted)).bind _ = _
  rw [hadjusted]
  rfl

end Json

namespace Ledger

variable {l : Ledger}

/-- The numbers of the entries of a lot fit 64 bits as long as no more have been given out. -/
theorem Reachable.survives_key (h : l.Reachable) (hissued : l.issued < twoTo 63) {id : EntryId} {e : Entry}
    (he : l.entry? id = some e) : Json.Survives id := by
  have hnumber := h.integral.numbered (.entry id) (entry_mem_inUse.mpr ⟨e, he⟩)
  simp only [Numbered.number] at hnumber
  exact Json.survives_identity (Json.survives_int (by omega) (by omega))

/-- Lots that come of matching are read back from the text that is written for them if their shares have few
digits, as of the purchase date and as of the sale date. -/
theorem lots_survive (h : l.ReachedByMatching)
    (hplaces : l.settings.sharePlaces ≤ Settings.maxSharePlaces) (hissued : l.issued < twoTo 63) {lot : Lot}
    (hlot : lot ∈ l.lots.items) (hpurchase : lot.purchaseShares.IsShort)
    (hadjusted : lot.adjustedShares.IsShort) : Json.ofText? (Json.toText lot) = some lot := by
  have hsixteen : l.OnScale SplitHistory.adjustedPlaces := by
    refine ReachableBy.onScale (h.mono fun _ edit hmakes => ⟨hmakes, .inl le_rfl⟩) ?_
    exact hplaces.trans (by decide)
  obtain ⟨hgrid, hgrid'⟩ := hsixteen.lots lot hlot
  obtain ⟨-, ⟨purchase, hpurchased⟩, sale, hsold⟩ :=
    h.reachable.integral.lot lot.key lot (Register.mem_items_iff.mp hlot)
  exact Json.ofText?_toText_lot (h.reachable.survives_key hissued hpurchased)
    (h.reachable.survives_key hissued hsold) (Json.survives_decimal hpurchase hgrid)
    (Json.survives_decimal hadjusted hgrid')

/-- What a check finds of a lot after edits that make lots only by matching. -/
theorem exists_lot_of_any {edits : List Edit} {key : LotKey} {p : Ledger → Lot → Prop}
    [∀ l lot, Decidable (p l lot)] (hedits : ∀ edit ∈ edits, edit.makesLots = false)
    (hcheck : (((Ledger.new .standard).performAll edits).toOption.any fun l =>
      (l.lot? key).any fun lot => p l lot) = true) :
    ∃ l lot, l.ReachedByMatching ∧ lot ∈ l.lots.items ∧ p l lot := by
  obtain ⟨l, hl, hcheck⟩ := exists_ok_of_any hcheck
  obtain ⟨lot, hlot, hcheck⟩ := (Option.any_eq_true _ _).mp hcheck
  exact ⟨l, lot, (ReachableBy.new .standard).performAll_of_forall hedits hl,
    (Register.get?_eq_some_iff.mp hlot).1, of_decide_eq_true hcheck⟩

/-- A third of a share, with sixteen digits, is read back. -/
theorem lots_survive_acrossUneven : ∃ (l : Ledger) (lot : Lot), l.ReachedByMatching ∧ lot ∈ l.lots.items ∧
    lot.purchaseShares = .ofMantissa 3333333333333334 16 (by decide) ∧
    lot.adjustedShares = .ofMantissa 3333333333333334 16 (by decide) ∧
    Json.ofText? (Json.toText lot) = some lot := by
  obtain ⟨l, lot, hreached, hlot, hplaces, hissued, hpurchase, hadjusted⟩ :=
    @exists_lot_of_any matchedAcrossUneven ⟨⟨5⟩, ⟨7⟩⟩ (fun l lot =>
      l.settings.sharePlaces ≤ Settings.maxSharePlaces ∧ l.issued < twoTo 63 ∧
        lot.purchaseShares = .ofMantissa 3333333333333334 16 (by decide) ∧
        lot.adjustedShares = .ofMantissa 3333333333333334 16 (by decide)) _ (by decide) (by decide +kernel)
  have hshort : (Decimal.ofMantissa 3333333333333334 16 (by decide)).IsShort :=
    Decimal.isShort_ofMantissa _ (by decide) (by decide) (by decide) (by decide)
  exact ⟨l, lot, hreached, hlot, hpurchase, hadjusted,
    lots_survive hreached hplaces hissued hlot (hpurchase ▸ hshort) (hadjusted ▸ hshort)⟩

/-- A share that is sold after a split of seven for eleven. -/
def matchedAcrossSevenForEleven : List Edit :=
  [.addSecurity "S", .addSplit ⟨1⟩ ⟨.june 20, ⟨.whole 7, .whole 11⟩⟩,
    .addTransaction ⟨7⟩ (.june 19) (some ⟨1⟩), .addEntry ⟨2⟩ none (some 1) none,
    .addTransaction ⟨7⟩ (.june 22) (some ⟨1⟩), .addEntry ⟨4⟩ none (some (-1)) none,
    .allocateLots ⟨5⟩ [⟨3⟩]]

/-- Seven quadrillion shares and more, in fifteen digits and a zero. -/
def quadrillions : Decimal := .ofMantissa 7359679200688380 0 (by decide)

/-- As many shares are bought and sold. -/
def matchedQuadrillions : List Edit :=
  [.addSecurity "S",
    .addTransaction ⟨7⟩ (.june 19) (some ⟨1⟩), .addEntry ⟨2⟩ none (some quadrillions) none,
    .addTransaction ⟨7⟩ (.june 22) (some ⟨1⟩), .addEntry ⟨4⟩ none (some (-quadrillions)) none,
    .allocateLots ⟨5⟩ [⟨3⟩]]

/-- Sixteen digits may share their double with others of sixteen digits, and be written like these. From
10^15 on, fifteen digits are written as they are, but read digit by digit as a neighbour of their double. -/
theorem exists_changed :
    (∃ (l : Ledger) (lot : Lot), l.ReachedByMatching ∧
      l.settings.sharePlaces ≤ Settings.maxSharePlaces ∧ l.issued < twoTo 63 ∧ lot ∈ l.lots.items ∧
      lot.adjustedShares = .ofMantissa 6363636363636363 16 (by decide) ∧
      Json.ofText? (Json.toText lot) =
        some { lot with adjustedShares := .ofMantissa 6363636363636364 16 (by decide) } ∧
      Json.ofText? (Json.toText lot) ≠ some lot) ∧
    ∃ (l : Ledger) (lot : Lot), l.ReachedByMatching ∧
      l.settings.sharePlaces ≤ Settings.maxSharePlaces ∧ l.issued < twoTo 63 ∧ lot ∈ l.lots.items ∧
      lot.adjustedShares = quadrillions ∧ Json.ofText? (Json.toText lot) ≠ some lot := by
  obtain ⟨l, lot, hreached, hlot, hplaces, hissued, hadjusted, hback, hchanged⟩ :=
    @exists_lot_of_any matchedAcrossSevenForEleven ⟨⟨3⟩, ⟨5⟩⟩ (fun l lot =>
      l.settings.sharePlaces ≤ Settings.maxSharePlaces ∧ l.issued < twoTo 63 ∧
        lot.adjustedShares = .ofMantissa 6363636363636363 16 (by decide) ∧
        Json.ofText? (Json.toText lot) =
          some ({ lot with adjustedShares := .ofMantissa 6363636363636364 16 (by decide) } : Lot) ∧
        Json.ofText? (Json.toText lot) ≠ some lot) _ (by decide) (by decide +kernel)
  obtain ⟨l', lot', hreached', hlot', hplaces', hissued', hadjusted', hchanged'⟩ :=
    @exists_lot_of_any matchedQuadrillions ⟨⟨3⟩, ⟨5⟩⟩ (fun l lot =>
      l.settings.sharePlaces ≤ Settings.maxSharePlaces ∧ l.issued < twoTo 63 ∧
        lot.adjustedShares = quadrillions ∧ Json.ofText? (Json.toText lot) ≠ some lot) _ (by decide)
      (by decide +kernel)
  exact ⟨⟨l, lot, hreached, hplaces, hissued, hlot, hadjusted, hback, hchanged⟩,
    l', lot', hreached', hplaces', hissued', hlot', hadjusted', hchanged'⟩

end Ledger

end Lotbook
