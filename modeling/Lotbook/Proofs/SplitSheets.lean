/-
# Lotbook.Proofs.SplitSheets -- splits kept in a row, and found by halving it

The splits of a security can be kept in a row that is searched by halving: a split is put in, or taken
out, where the search ends (`SplitSheet.insert`, `SplitSheet.remove`). As long as the row starts out
empty it stays in order of dates, so that the search always finds what is there; a row and a history
that went through the same edits hold the same splits. What a row holds depends only on the ratios that
stand on each day, and not on the order in which they came (`SplitSheet.splits_kept`).
-/
import Lotbook.Json.Split
import Lotbook.Proofs.Registers
import Lotbook.Proofs.Edits

namespace Lotbook

/-! ## Halving a row -/

/-- Where a key is in a row: at a place, or missing, with the place where its item would go. -/
inductive Place where
  | found (i : Nat)
  | missing (i : Nat)

namespace Register

variable {α κ : Type} [Keyed α κ] [Ranked κ] {row : List α} {k : κ}

/-- Halves a stretch of a row until a single item is left: the last whose key is not above `k`, or the
first of the stretch. -/
def bisect (row : List α) (k : κ) (start size : Nat) : Nat :=
  if 1 < size then
    if row[start + size / 2]?.any fun x => k < key x then bisect row k start (size - size / 2)
    else bisect row k (start + size / 2) (size - size / 2)
  else start
termination_by size

/-- Finds a key in a row that is in order. -/
def locate [DecidableEq κ] (row : List α) (k : κ) : Place :=
  let i := bisect row k 0 row.length
  match row[i]? with
  | none => .missing 0
  | some x => if key x = k then .found i else if key x < k then .missing (i + 1) else .missing i

theorem key_lt_of_lt (h : row.Pairwise fun a b => key a < key b) {i j : Nat} (hij : i < j)
    (hj : j < row.length) : key row[i] < key row[j] :=
  List.pairwise_iff_getElem.mp h i j (hij.trans hj) hj hij

/-- All items before a stretch are below the key and all behind it are above; this stays so as the
stretch is halved. -/
theorem bisect_spec (h : row.Pairwise fun a b => key a < key b) {start size : Nat} (hsize : 0 < size)
    (hfits : start + size ≤ row.length)
    (hbelow : ∀ j (hj : j < row.length), j < start → key row[j] < k)
    (habove : ∀ j (hj : j < row.length), start + size ≤ j → k < key row[j]) :
    bisect row k start size < row.length ∧
      (∀ j (hj : j < row.length), j < bisect row k start size → key row[j] < k) ∧
      ∀ j (hj : j < row.length), bisect row k start size < j → k < key row[j] := by
  induction size using Nat.strong_induction_on generalizing start with
  | _ size ih =>
    rw [bisect]
    split
    · rename_i hmany
      have hmiddle : start + size / 2 < row.length := by omega
      simp only [List.getElem?_eq_getElem hmiddle, Option.any_some, decide_eq_true_eq]
      split
      · rename_i hlow
        refine ih (size - size / 2) (by omega) (by omega) (by omega) hbelow fun j hj hle => ?_
        rcases Nat.eq_or_lt_of_le (show start + size / 2 ≤ j by omega) with rfl | hlt
        · exact hlow
        · exact Ranked.lt_trans hlow (key_lt_of_lt h hlt hj)
      · rename_i hhigh
        refine ih (size - size / 2) (by omega) (by omega) (by omega) (fun j hj hlt => ?_)
          fun j hj hle => habove j hj (by omega)
        have hmiddle_lt := key_lt_of_lt h hlt hmiddle
        rcases Ranked.lt_or_eq_or_gt (key row[start + size / 2]) k with hbelow | heq | habove
        · exact Ranked.lt_trans hmiddle_lt hbelow
        · exact heq ▸ hmiddle_lt
        · exact absurd habove hhigh
    · obtain rfl : size = 1 := by omega
      exact ⟨by omega, hbelow, fun j hj hlt => habove j hj (by omega)⟩

variable [DecidableEq κ]

/-- Where the search ends, the row falls into what is below the key, its item if there is one, and what
is above the key. -/
theorem locate_spec (h : row.Pairwise fun a b => key a < key b) (k : κ) :
    (∃ front x back, row = front ++ x :: back ∧ key x = k ∧ locate row k = .found front.length) ∨
      ∃ front back, row = front ++ back ∧ (∀ y ∈ front, key y < k) ∧ (∀ y ∈ back, k < key y) ∧
        locate row k = .missing front.length := by
  rcases Nat.eq_zero_or_pos row.length with hempty | hpos
  · obtain rfl := List.eq_nil_of_length_eq_zero hempty
    exact .inr ⟨[], [], rfl, by simp, by simp, rfl⟩
  · obtain ⟨hi, hbelow, habove⟩ := bisect_spec (k := k) h hpos (by omega)
      (fun j _ hj => absurd hj (Nat.not_lt_zero j)) fun j hj hle => absurd hj (by omega)
    unfold locate
    generalize bisect row k 0 row.length = i at hi hbelow habove
    have hrow : row = row.take i ++ row[i] :: row.drop (i + 1) := by
      rw [List.getElem_cons_drop, List.take_append_drop]
    have hfront : (row.take i).length = i := List.length_take_of_le hi.le
    have hbefore : ∀ y ∈ row.take i, key y < k := by
      intro y hy
      obtain ⟨j, hj, rfl⟩ := List.mem_take_iff_getElem.mp hy
      exact hbelow j (by omega) (by omega)
    have hbehind : ∀ y ∈ row.drop (i + 1), k < key y := by
      intro y hy
      obtain ⟨j, hj, rfl⟩ := List.mem_drop_iff_getElem.mp hy
      exact habove _ _ (by omega)
    simp only [List.getElem?_eq_getElem hi]
    rcases Ranked.lt_or_eq_or_gt (key row[i]) k with hlt | heq | hgt
    · refine .inr ⟨row.take i ++ [row[i]], row.drop (i + 1), ?_, ?_, hbehind, ?_⟩
      · rw [List.append_assoc]
        exact hrow
      · intro y hy
        rcases List.mem_append.mp hy with hy | hy
        · exact hbefore y hy
        · rwa [List.mem_singleton.mp hy]
      · rw [if_neg (Ranked.ne_of_lt hlt), if_pos hlt, List.length_append, hfront]
        rfl
    · refine .inl ⟨row.take i, row[i], row.drop (i + 1), hrow, heq, ?_⟩
      rw [if_pos heq, hfront]
    · refine .inr ⟨row.take i, row[i] :: row.drop (i + 1), hrow, hbefore, ?_, ?_⟩
      · intro y hy
        rcases List.mem_cons.mp hy with rfl | hy
        · exact hgt
        · exact hbehind y hy
      · have hne : key row[i] ≠ k := fun heq => Ranked.lt_irrefl k (heq ▸ hgt)
        have hnot : ¬ key row[i] < k := fun hlt => Ranked.lt_irrefl k (Ranked.lt_trans hgt hlt)
        rw [if_neg hne, if_neg hnot, hfront]

/-! ## A row as a register -/

omit [DecidableEq κ] in
/-- An item is filed where the search for its key ends. -/
theorem file_of_missing {front back : List α} {x : α} (hfront : ∀ y ∈ front, key y < key x)
    (hback : ∀ y ∈ back, key x < key y) :
    file x (front ++ back) = (front ++ back).insertIdx front.length x := by
  induction front with
  | nil =>
    cases back with
    | nil => rfl
    | cons y back =>
      have hlt := hback y List.mem_cons_self
      have hnot : ¬ key y < key x := fun h => Ranked.lt_irrefl _ (Ranked.lt_trans h hlt)
      show file x (y :: back) = x :: y :: back
      rw [file, if_neg hnot, if_pos hlt]
  | cons y front ih =>
    show file x (y :: (front ++ back)) = y :: (front ++ back).insertIdx front.length x
    rw [file, if_pos (hfront y List.mem_cons_self),
      ih fun z hz => hfront z (List.mem_cons_of_mem y hz)]

variable (r : Register α) (k : κ)

/-- A register answers with the item that halving its row finds, and is without it when that is taken
out; where none is found, it answers with nothing and takes the item in at the place that is found. -/
theorem locate_items :
    (∃ i x, locate r.items k = .found i ∧ r.items[i]? = some x ∧ r.get? k = some x ∧
      (r.erase k).items = r.items.eraseIdx i) ∨
    ∃ i, locate r.items k = .missing i ∧ r.get? k = none ∧ (r.erase k).items = r.items ∧
      ∀ x, key x = k → (r.put x).items = r.items.insertIdx i x := by
  rcases locate_spec r.sorted k with ⟨front, x, back, hrow, hx, hlocate⟩ |
    ⟨front, back, hrow, hfront, hback, hlocate⟩
  · refine .inl ⟨front.length, x, hlocate, ?_, ?_, ?_⟩
    · rw [hrow]
      simp
    · refine get?_eq_some_iff.mpr ⟨?_, hx⟩
      rw [hrow]
      exact List.mem_append_right _ List.mem_cons_self
    · have hsorted := r.sorted
      rw [hrow, List.pairwise_append, List.pairwise_cons] at hsorted
      obtain ⟨-, ⟨hafter, -⟩, hbefore⟩ := hsorted
      have hkept {ys : List α} (h : ∀ y ∈ ys, key y ≠ k) : ys.filter (fun y => key y ≠ k) = ys :=
        List.filter_eq_self.mpr fun y hy => decide_eq_true (h y hy)
      show r.items.filter (fun y => key y ≠ k) = _
      rw [hrow, List.eraseIdx_append_of_length_le (le_refl _), Nat.sub_self, List.filter_append,
        List.filter_cons_of_neg (by simp [hx]), List.eraseIdx_cons_zero,
        hkept fun y hy => hx ▸ Ranked.ne_of_lt (hbefore y hy x List.mem_cons_self),
        hkept fun y hy => hx ▸ (Ranked.ne_of_lt (hafter y hy)).symm]
  · have hother : ∀ y ∈ r.items, key y ≠ k := by
      intro y hy
      rw [hrow] at hy
      rcases List.mem_append.mp hy with hy | hy
      · exact Ranked.ne_of_lt (hfront y hy)
      · exact (Ranked.ne_of_lt (hback y hy)).symm
    refine .inr ⟨front.length, hlocate, get?_eq_none_iff.mpr hother, ?_, ?_⟩
    · exact List.filter_eq_self.mpr fun y hy => decide_eq_true (hother y hy)
    · rintro x rfl
      show file x r.items = _
      rw [hrow, file_of_missing hfront hback]

end Register

/-! ## Sheets that are edited -/

/-- What is done to the splits of a security. -/
inductive SplitEdit where
  | insert (split : StockSplit)
  | remove (date : Date)
  deriving DecidableEq

namespace SplitHistory

/-- Carries out an edit; one that is refused changes nothing. -/
def perform (h : SplitHistory) : SplitEdit → SplitHistory
  | .insert split =>
      match h.insert split with
      | .ok h₁ => h₁
      | .error _ => h
  | .remove date => h.remove date

/-- The history of a security after some edits. -/
def after (security : SecurityId) (edits : List SplitEdit) : SplitHistory :=
  edits.foldl perform (new security)

theorem insert_of_on? {h : SplitHistory} {split x : StockSplit} (hon : h.on? split.date = some x) :
    h.insert split = .error (.duplicateDate h.security split.date) := by
  unfold insert
  rw [hon]

theorem insert_of_not_on? {h : SplitHistory} {split : StockSplit} (hon : h.on? split.date = none) :
    h.insert split = .ok { h with splits := h.splits.put split } := by
  unfold insert
  rw [hon]

theorem on?_perform_insert (h : SplitHistory) (split : StockSplit) (date : Date) :
    (h.perform (.insert split)).on? date =
      if date = split.date ∧ h.on? date = none then some split else h.on? date := by
  unfold perform
  cases hon : h.on? split.date with
  | some x =>
    have hrefused : ¬ (date = split.date ∧ h.on? date = none) := by
      rintro ⟨rfl, hnone⟩
      rw [hon] at hnone
      cases hnone
    simp only [insert_of_on? hon, if_neg hrefused]
  | none =>
    simp only [insert_of_not_on? hon]
    show (h.splits.put split).get? date = _
    rw [Register.get?_put_of_key (show key split = split.date from rfl)]
    by_cases hdate : date = split.date
    · rw [if_pos hdate, if_pos ⟨hdate, hdate ▸ hon⟩]
    · rw [if_neg hdate, if_neg fun h => hdate h.1]
      rfl

theorem on?_perform_remove (h : SplitHistory) (removed date : Date) :
    (h.perform (.remove removed)).on? date = if date = removed then none else h.on? date :=
  Register.get?_erase h.splits removed date

end SplitHistory

namespace SplitSheet

/-- A sheet without splits. -/
def new (security : SecurityId) : SplitSheet := ⟨security, []⟩

/-- The split on a day. -/
def on? (s : SplitSheet) (date : Date) : Option StockSplit :=
  match Register.locate s.splits date with
  | .found i => s.splits[i]?
  | .missing _ => none

/-- Puts a split in at its place and gives it back, unless there is one on that day. -/
def insert (s : SplitSheet) (split : StockSplit) : Except SplitError StockSplit × SplitSheet :=
  match Register.locate s.splits split.date with
  | .found _ => (.error (.duplicateDate s.security split.date), s)
  | .missing i => (.ok split, { s with splits := s.splits.insertIdx i split })

/-- Takes out the split on a day and gives it back. -/
def remove (s : SplitSheet) (date : Date) : Option StockSplit × SplitSheet :=
  match Register.locate s.splits date with
  | .found i => (s.splits[i]?, { s with splits := s.splits.eraseIdx i })
  | .missing _ => (none, s)

/-- Carries out an edit. -/
def perform (s : SplitSheet) : SplitEdit → SplitSheet
  | .insert split => (s.insert split).2
  | .remove date => (s.remove date).2

/-- The sheet of a security after some edits. -/
def after (security : SecurityId) (edits : List SplitEdit) : SplitSheet :=
  edits.foldl perform (new security)

/-! ## Sheets and histories -/

variable {security : SecurityId} {edits : List SplitEdit} {split : StockSplit}

/-- What is done to the sheet of a history: where a day is found its split is given back, no other is put
in, and it can be taken out; where it is missing a split can be put in, and nothing is taken out. -/
theorem sheet_cases (h : SplitHistory) (date : Date) :
    (∃ x, h.on? date = some x ∧ h.sheet.on? date = some x ∧
      h.sheet.remove date = (some x, (h.remove date).sheet) ∧
      ∀ split, split.date = date →
        h.sheet.insert split = (.error (.duplicateDate h.security split.date), h.sheet)) ∨
    h.on? date = none ∧ h.sheet.on? date = none ∧
      h.sheet.remove date = (none, (h.remove date).sheet) ∧
      ∀ split, split.date = date →
        h.sheet.insert split = (.ok split, (h.perform (.insert split)).sheet) := by
  rcases h.splits.locate_items date with ⟨i, x, hlocate, hx, hget, herase⟩ |
    ⟨i, hlocate, hget, herase, hput⟩
  · have hlocate : Register.locate h.sheet.splits date = .found i := hlocate
    refine .inl ⟨x, hget, ?_, ?_, ?_⟩
    · simp only [on?, hlocate]
      exact hx
    · simp only [remove, hlocate]
      exact Prod.ext hx (congrArg (SplitSheet.mk h.security) herase.symm)
    · rintro split rfl
      simp only [insert, hlocate]
      rfl
  · have hlocate : Register.locate h.sheet.splits date = .missing i := hlocate
    refine .inr ⟨hget, ?_, ?_, ?_⟩
    · simp only [on?, hlocate]
    · simp only [remove, hlocate]
      exact Prod.ext rfl (congrArg (SplitSheet.mk h.security) herase.symm)
    · rintro split rfl
      have hon : h.on? split.date = none := hget
      simp only [insert, hlocate, SplitHistory.perform, SplitHistory.insert_of_not_on? hon]
      exact Prod.ext rfl (congrArg (SplitSheet.mk h.security) (hput split rfl).symm)

/-- An edit makes the same of a sheet as of the history that it shows. -/
theorem perform_sheet (h : SplitHistory) (edit : SplitEdit) :
    h.sheet.perform edit = (h.perform edit).sheet := by
  cases edit with
  | insert split =>
    show (h.sheet.insert split).2 = _
    rcases sheet_cases h split.date with ⟨x, hon, -, -, hinsert⟩ | ⟨-, -, -, hinsert⟩
    · simp only [hinsert split rfl, SplitHistory.perform, SplitHistory.insert_of_on? hon]
    · rw [hinsert split rfl]
  | remove date =>
    show (h.sheet.remove date).2 = (h.remove date).sheet
    rcases sheet_cases h date with ⟨x, -, -, hremove, -⟩ | ⟨-, -, hremove, -⟩
    · rw [hremove]
    · rw [hremove]

theorem foldl_perform_sheet (h : SplitHistory) (edits : List SplitEdit) :
    edits.foldl perform h.sheet = (edits.foldl SplitHistory.perform h).sheet := by
  induction edits generalizing h with
  | nil => rfl
  | cons edit edits ih => rw [List.foldl_cons, List.foldl_cons, perform_sheet, ih]

theorem on?_sheet (h : SplitHistory) (date : Date) : h.sheet.on? date = h.on? date := by
  rcases sheet_cases h date with ⟨x, hon, hsheet, -⟩ | ⟨hon, hsheet, -⟩
  · rw [hon, hsheet]
  · rw [hon, hsheet]

theorem after_eq (security : SecurityId) (edits : List SplitEdit) :
    after security edits = (SplitHistory.after security edits).sheet :=
  foldl_perform_sheet (.new security) edits

theorem security_after (security : SecurityId) (edits : List SplitEdit) :
    (SplitHistory.after security edits).security = security := by
  have hkept (h : SplitHistory) (edit : SplitEdit) : (h.perform edit).security = h.security := by
    cases edit with
    | insert split =>
      unfold SplitHistory.perform
      cases hon : h.on? split.date with
      | some x => simp only [SplitHistory.insert_of_on? hon]
      | none => simp only [SplitHistory.insert_of_not_on? hon]
    | remove date => rfl
  have hall (h : SplitHistory) : (edits.foldl SplitHistory.perform h).security = h.security := by
    induction edits generalizing h with
    | nil => rfl
    | cons edit edits ih => rw [List.foldl_cons, ih, hkept]
  exact hall _

/-! ## What stands on a day -/

/-- Whether a split was put in, by an edit that was not refused, and was not taken out since. -/
def Standing (security : SecurityId) (edits : List SplitEdit) (split : StockSplit) : Prop :=
  ∃ earlier later, edits = earlier ++ .insert split :: later ∧
    ((after security earlier).insert split).1 = .ok split ∧ .remove split.date ∉ later

theorem standing_concat {edit : SplitEdit} :
    Standing security (edits ++ [edit]) split ↔
      edit = .insert split ∧ ((after security edits).insert split).1 = .ok split ∨
        Standing security edits split ∧ edit ≠ .remove split.date := by
  constructor
  · rintro ⟨earlier, later, heq, hinsert, hkept⟩
    rcases List.eq_nil_or_concat later with rfl | ⟨later, last, rfl⟩
    · obtain ⟨rfl, hlast⟩ := List.append_inj' heq rfl
      exact .inl ⟨(List.cons.inj hlast).1, hinsert⟩
    · rw [List.concat_eq_append, ← List.cons_append, ← List.append_assoc] at heq
      obtain ⟨rfl, hlast⟩ := List.append_inj' heq rfl
      obtain rfl := (List.cons.inj hlast).1
      rw [List.concat_eq_append, List.mem_append, not_or, List.mem_singleton] at hkept
      exact .inr ⟨⟨earlier, later, rfl, hinsert, hkept.1⟩, fun h => hkept.2 h.symm⟩
  · rintro (⟨rfl, hinsert⟩ | ⟨⟨earlier, later, rfl, hinsert, hkept⟩, hne⟩)
    · exact ⟨edits, [], rfl, hinsert, List.not_mem_nil⟩
    · refine ⟨earlier, later ++ [edit], by simp, hinsert, fun hmem => ?_⟩
      rcases List.mem_append.mp hmem with hmem | hmem
      · exact hkept hmem
      · exact hne (List.mem_singleton.mp hmem).symm

/-- A split can be put in where there is none on its day. -/
theorem insert_after_eq_ok_iff : ((after security edits).insert split).1 = .ok split ↔
    (SplitHistory.after security edits).on? split.date = none := by
  rw [after_eq]
  rcases sheet_cases (SplitHistory.after security edits) split.date with
    ⟨x, hon, -, -, hinsert⟩ | ⟨hon, -, -, hinsert⟩
  · rw [hinsert split rfl, hon]
    exact iff_of_false (fun h => by cases h) fun h => by cases h
  · rw [hinsert split rfl]
    exact iff_of_true rfl hon

/-- A history holds the splits that stand, each on its day. -/
theorem on?_after_eq_some_iff (security : SecurityId) (edits : List SplitEdit) (date : Date)
    (split : StockSplit) : (SplitHistory.after security edits).on? date = some split ↔
      split.date = date ∧ Standing security edits split := by
  induction edits using List.reverseRecOn with
  | nil =>
    refine iff_of_false (fun h => by cases h) ?_
    rintro ⟨-, earlier, later, heq, -⟩
    cases earlier <;> cases heq
  | append_singleton edits edit ih =>
    have hstep : SplitHistory.after security (edits ++ [edit]) =
        (SplitHistory.after security edits).perform edit := by
      rw [SplitHistory.after, List.foldl_append]
      rfl
    rw [hstep, standing_concat, insert_after_eq_ok_iff]
    cases edit with
    | remove removed =>
      rw [SplitHistory.on?_perform_remove]
      by_cases hremoved : date = removed
      · rw [if_pos hremoved]
        refine iff_of_false (fun h => by cases h) ?_
        rintro ⟨hdate, ⟨h, -⟩ | ⟨-, hne⟩⟩
        · cases h
        · exact hne (by rw [hdate, hremoved])
      · rw [if_neg hremoved, ih]
        refine and_congr_right fun hdate => ⟨fun h => .inr ⟨h, ?_⟩, ?_⟩
        · rintro ⟨⟩
          exact hremoved hdate.symm
        · rintro (⟨h, -⟩ | ⟨h, -⟩)
          · cases h
          · exact h
    | insert x =>
      rw [SplitHistory.on?_perform_insert]
      by_cases haccepted : date = x.date ∧ (SplitHistory.after security edits).on? date = none
      · obtain ⟨rfl, hnone⟩ := haccepted
        rw [if_pos ⟨rfl, hnone⟩]
        constructor
        · rintro ⟨⟩
          exact ⟨rfl, .inl ⟨rfl, hnone⟩⟩
        · rintro ⟨hdate, ⟨⟨⟩, -⟩ | ⟨hstanding, -⟩⟩
          · rfl
          · rw [ih.mpr ⟨hdate, hstanding⟩] at hnone
            cases hnone
      · rw [if_neg haccepted, ih]
        refine and_congr_right fun hdate => ⟨fun h => .inr ⟨h, fun h => by cases h⟩, ?_⟩
        rintro (⟨⟨⟩, hnone⟩ | ⟨hstanding, -⟩)
        · exact absurd ⟨hdate.symm, hdate ▸ hnone⟩ haccepted
        · exact hstanding

/-! ## What a sheet depends on -/

/-- Histories of a security with the same ratio on every day are the same. -/
theorem after_congr {edits' : List SplitEdit}
    (h : ∀ date, ((SplitHistory.after security edits').on? date).map StockSplit.ratio =
      ((SplitHistory.after security edits).on? date).map StockSplit.ratio) :
    SplitHistory.after security edits' = SplitHistory.after security edits := by
  have hsplits : (SplitHistory.after security edits').splits =
      (SplitHistory.after security edits).splits := by
    refine Register.ext_get? fun date => ?_
    have hdate : ∀ {edits : List SplitEdit} {split : StockSplit},
        (SplitHistory.after security edits).on? date = some split → split.date = date :=
      fun hon => Register.key_of_get? hon
    have hratio := h date
    show (SplitHistory.after security edits').on? date = (SplitHistory.after security edits).on? date
    cases hon : (SplitHistory.after security edits').on? date with
    | none =>
      rw [hon] at hratio
      exact (Option.map_eq_none_iff.mp hratio.symm).symm
    | some split =>
      rw [hon] at hratio
      obtain ⟨split', hon', hsame⟩ := Option.map_eq_some_iff.mp hratio.symm
      have hsplit : split' = split := by
        cases split
        cases split'
        exact congrArg₂ StockSplit.mk ((hdate hon').trans (hdate hon).symm) hsame
      rw [hon', hsplit]
  calc SplitHistory.after security edits'
      = ⟨(SplitHistory.after security edits').security, (SplitHistory.after security edits').splits⟩ :=
        rfl
    _ = ⟨(SplitHistory.after security edits).security, (SplitHistory.after security edits).splits⟩ := by
        rw [security_after, security_after, hsplits]

/-- However the splits of a security are put in and taken out, its sheet is that of its history. It is in
order of dates; putting in is refused, and changes nothing, where there is a split on the day, and only
there; what is found or taken out is the split that was put in last and not taken out since. Two sheets
with the same ratio on every day are the same, and so is whatever is computed of their splits. -/
theorem splits_kept (security : SecurityId) (edits : List SplitEdit) :
    after security edits = (SplitHistory.after security edits).sheet ∧
    (after security edits).splits.Pairwise (fun a b => a.date < b.date) ∧
    (∀ split, if ∃ x ∈ (after security edits).splits, x.date = split.date then
        (after security edits).insert split =
          (.error (.duplicateDate security split.date), after security edits)
      else ((after security edits).insert split).1 = .ok split) ∧
    (∀ date split, (after security edits).on? date = some split ↔
      split.date = date ∧ Standing security edits split) ∧
    (∀ date, ((after security edits).remove date).1 = (after security edits).on? date) ∧
    ∀ edits' : List SplitEdit,
      (∀ date, ((after security edits').on? date).map StockSplit.ratio =
        ((after security edits).on? date).map StockSplit.ratio) →
      after security edits' = after security edits ∧ ∀ period shares places,
        let h := SplitHistory.after security edits
        let h' := SplitHistory.after security edits'
        h'.ratioOver period = h.ratioOver period ∧ h'.apply period shares = h.apply period shares ∧
          h'.revert period shares places = h.revert period shares places ∧
          h'.covered period shares = h.covered period shares ∧
          h'.covering period shares places = h.covering period shares places := by
  refine ⟨after_eq security edits, ?_, fun split => ?_, fun date split => ?_, fun date => ?_,
    fun edits' hsame => ?_⟩
  · rw [after_eq]
    exact (SplitHistory.after security edits).splits.sorted
  · have hsecurity := security_after security edits
    rw [after_eq]
    rcases sheet_cases (SplitHistory.after security edits) split.date with
      ⟨x, hon, -, -, hinsert⟩ | ⟨hon, -, -, hinsert⟩
    · obtain ⟨hmem, hdate⟩ := Register.get?_eq_some_iff.mp hon
      rw [if_pos ⟨x, hmem, hdate⟩, hinsert split rfl, hsecurity]
    · have hnone : ¬ ∃ x ∈ (SplitHistory.after security edits).sheet.splits, x.date = split.date :=
        fun ⟨x, hmem, hdate⟩ => Register.get?_eq_none_iff.mp hon x hmem hdate
      rw [if_neg hnone, hinsert split rfl]
  · rw [after_eq, on?_sheet, on?_after_eq_some_iff]
  · rw [after_eq]
    rcases sheet_cases (SplitHistory.after security edits) date with
      ⟨x, -, hon, hremove, -⟩ | ⟨-, hon, hremove, -⟩
    · rw [hon, hremove]
    · rw [hon, hremove]
  · simp only [after_eq, on?_sheet] at hsame
    rw [after_eq, after_eq, after_congr hsame]
    exact ⟨rfl, fun _ _ _ => ⟨rfl, rfl, rfl, rfl, rfl⟩⟩

/-- A split of two for one and one of one for four, and a third that is taken out before and after it is
put in, the second time over the first. -/
def backAndForth : List SplitEdit :=
  [.insert ⟨.june 22, ⟨1, .whole 4⟩⟩, .remove (.june 21), .insert ⟨.june 21, ⟨.whole 3, 1⟩⟩,
    .insert ⟨.june 20, ⟨.whole 2, 1⟩⟩, .insert ⟨.june 20, ⟨.whole 5, 1⟩⟩, .remove (.june 21)]

/-- The two splits that are left of it, in the order of their dates. -/
def straightOn : List SplitEdit :=
  [.insert ⟨.june 20, ⟨.whole 2, 1⟩⟩, .insert ⟨.june 22, ⟨1, .whole 4⟩⟩]

theorem splits_kept_backAndForth :
    (after ⟨1⟩ backAndForth).splits = [⟨.june 20, ⟨.whole 2, 1⟩⟩, ⟨.june 22, ⟨1, .whole 4⟩⟩] ∧
      ∀ period, (SplitHistory.after ⟨1⟩ straightOn).ratioOver period =
        (SplitHistory.after ⟨1⟩ backAndForth).ratioOver period := by
  have hsame : after ⟨1⟩ straightOn = after ⟨1⟩ backAndForth := by decide +kernel
  obtain ⟨-, -, -, -, -, hcongr⟩ := splits_kept ⟨1⟩ backAndForth
  obtain ⟨-, hconversions⟩ := hcongr straightOn fun date => by rw [hsame]
  exact ⟨by decide +kernel, fun period => (hconversions period 0 0).1⟩

end SplitSheet

end Lotbook
