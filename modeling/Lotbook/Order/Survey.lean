/-
# Lotbook.Order.Survey -- whose key is asked for first

Sorting by keys asks for a key when its element is first compared with another. Where keys can fail,
a sort fails with the first failure it comes upon, so the order of asking decides which of several
failures is reported. A survey asks for keys in that order and keeps none of them; it succeeds
whenever every key does (`survey_eq_ok`).

A few elements are inserted one after another. More of them are taken run by run: a long front that
is in order already is a run that needs no more asking, and what stands before the next one is a run
to be sorted, either at once, block by block, or not until it has to be joined with a run in order.
Runs are joined two by two, those first that halving the whole list again and again keeps together
longest.
-/
import Lotbook.Order
import Lotbook.Power

namespace Lotbook

namespace Survey

/-! ## Orders of asking, as positions -/

/-- The most elements that are inserted one after another. -/
def maxInserted : Nat := 20

/-- The most elements of a block. -/
def blockSize : Nat := 32

/-- The most elements that are sorted block by block. -/
def maxInBlocks : Nat := 64

/-- Neighbours two by two, the later of each pair first. -/
def inPairs (pairs : Nat) : List Nat := (List.range pairs).flatMap fun i => [2 * i + 1, 2 * i]

/-- Each element from position `placed` on is compared with the one before it. -/
def byInsertion (placed size : Nat) : List Nat :=
  ((List.range size).drop placed).flatMap fun i => [i, i - 1]

/-- Both halves of a block are sorted by themselves, their first elements by pairs and the others by
insertion, before the halves are merged, from the later one's side. -/
def inBlock (size : Nat) : List Nat :=
  let half := size / 2
  let pairs := if 16 ≤ size then 4 else if 8 ≤ size then 2 else 0
  let placed := if pairs = 0 then 1 else 2 * pairs
  inPairs pairs ++ (inPairs pairs).map (half + ·) ++
    byInsertion placed half ++ (byInsertion placed (size - half)).map (half + ·) ++
    (List.range size).reverse

/-- Where a stretch is probed for its middle element: at its start and after four and seven eighths.
Around each of these places a long stretch is probed once more, over one eighth of its length. -/
def probes (start size : Nat) : List Nat :=
  let places := [start, start + 4 * (size / 8), start + 7 * (size / 8)]
  if size < 64 then places else places.flatMap fun place => probes place (size / 8)
termination_by size
decreasing_by omega

/-- A stretch that no block can hold is parted, element by element, at the middle one. -/
def inStretch (size : Nat) : List Nat :=
  if size ≤ blockSize then inBlock size else probes 0 size ++ List.range size

/-! ## Runs -/

/-- Neighbouring elements: where they start, how many they are, and those among them that are still
to be sorted, which are none or all. -/
structure Run (α : Type) where
  start : Nat
  size : Nat
  unsorted : List α

/-- From how many of all elements on a front in order is a run: half of them, but never more than 64
unless they are very many; of those, about the square root, estimated from a power of two. -/
def longFrom (count : Nat) : Nat :=
  if count ≤ 64 * 64 then min (count - count / 2) 64
  else
    let guess := twoTo ((1 + count.log2) / 2)
    (guess + count / guess) / 2

/-- How many halvings of all elements it takes until the middles of two neighbouring runs lie in
different parts. -/
def depth {α : Type} (count : Nat) (a b : Run α) : Nat :=
  -- the middles, and with them the parts, are counted in half elements
  let middle := fun r : Run α => 2 * r.start + r.size
  let part := fun halvings place => place * twoTo halvings / (2 * count)
  ((List.range 64).find? fun d => part d (middle a) != part d (middle b)).getD 64

/-! ## Asking -/

variable {α ε : Type} (key : α → Except ε (List Int))

/-- Asks for the keys at the given positions. -/
def ask (items : List α) (positions : List Nat) : Except ε Unit :=
  let items := items.toArray
  (positions.filterMap (items[·]?)).forM fun a => do let _ ← key a

/-- Asks for keys as sorting a stretch does. -/
def askStretch (items : List α) : Except ε Unit := ask key items (inStretch items.length)

/-- How many elements go on in the direction of those before them. -/
def steady (falling : Bool) (last : List Int) : List α → Except ε Nat
  | [] => .ok 0
  | a :: as => do
      let next ← key a
      if precedes next last = falling then return (← steady falling next as) + 1 else return 0

/-- How many elements at the front never fall, or always do. -/
def ordered : List α → Except ε Nat
  | a :: b :: rest => do
      let next ← key b
      let last ← key a
      return (← steady key (precedes next last) next rest) + 2
  | short => .ok short.length

/-- How many elements at the front are in order; not looked for among fewer than `long` elements. -/
def longFront (long : Nat) (items : List α) : Except ε Nat :=
  if long ≤ items.length then ordered key items else .ok 0

/-- The run that begins with an element: a long front in order; if there is none, a block, sorted at
once, or else `long` elements that are left unsorted. -/
def runFrom (long : Nat) (inBlocks : Bool) (start : Nat) (a : α) (as : List α) :
    Except ε (Run α) := do
  let front ← longFront key long (a :: as)
  if long ≤ front then return ⟨start, front, []⟩
  else if inBlocks then
    let block := a :: as.take (blockSize - 1)
    ask key block (inBlock block.length)
    return ⟨start, block.length, []⟩
  else
    let stretch := a :: as.take (long - 1)
    return ⟨start, stretch.length, stretch⟩

/-- Two neighbouring runs as one. Unless both are unsorted they are sorted first. -/
def join (a b : Run α) : Except ε (Run α) :=
  if a.unsorted.isEmpty || b.unsorted.isEmpty then do
    askStretch key a.unsorted
    askStretch key b.unsorted
    return ⟨a.start, a.size + b.size, []⟩
  else .ok ⟨a.start, a.size + b.size, a.unsorted ++ b.unsorted⟩

/-- Joins a run with those before it, each given with the depth of the seam behind it, up to the
first seam that is less deep than `depth`. -/
def joinBack (depth : Nat) (last : Run α) :
    List (Run α × Nat) → Except ε (Run α × List (Run α × Nat))
  | [] => .ok (last, [])
  | (run, seam) :: before =>
      if depth ≤ seam then do joinBack depth (← join key run last) before
      else .ok (last, (run, seam) :: before)

/-- Takes up one run after another behind those found so far, and joins them all in the end. -/
def runs (count : Nat) (last : Run α) (before : List (Run α × Nat)) : List α → Except ε Unit
  | [] => do
      let (whole, _) ← joinBack key 0 last before
      askStretch key whole.unsorted
  | a :: as => do
      let next ← runFrom key (longFrom count) (count ≤ maxInBlocks) (last.start + last.size) a as
      let seam := depth count last next
      let (last, before) ← joinBack key seam last before
      runs count next ((last, seam) :: before) (as.drop (next.size - 1))
termination_by rest => rest.length
decreasing_by simp only [List.length_drop, List.length_cons]; omega

/-! ## A survey without failures -/

variable {key}

theorem ask_eq_ok {items : List α} (h : ∀ a ∈ items, ∃ k, key a = .ok k) (positions : List Nat) :
    ask key items positions = .ok () := by
  unfold ask
  induction positions with
  | nil => rfl
  | cons i positions ih =>
    cases hi : items[i]? with
    | none => simpa [hi] using ih
    | some a =>
      obtain ⟨k, hk⟩ := h a (List.mem_of_getElem? hi)
      simpa [hi, hk, Bind.bind, Except.bind, Pure.pure, Except.pure] using ih

theorem exists_steady_eq_ok {items : List α} (h : ∀ a ∈ items, ∃ k, key a = .ok k) (falling : Bool)
    (last : List Int) : ∃ n, steady key falling last items = .ok n := by
  induction items generalizing last with
  | nil => exact ⟨0, rfl⟩
  | cons a as ih =>
    obtain ⟨k, hk⟩ := h a (by simp)
    obtain ⟨n, hn⟩ := ih (fun b hb => h b (by simp [hb])) k
    simp only [steady, hk, Bind.bind, Except.bind, hn]
    split <;> exact ⟨_, rfl⟩

theorem exists_ordered_eq_ok {items : List α} (h : ∀ a ∈ items, ∃ k, key a = .ok k) :
    ∃ n, ordered key items = .ok n := by
  match items with
  | [] => exact ⟨0, rfl⟩
  | [_] => exact ⟨1, rfl⟩
  | a :: b :: rest =>
    obtain ⟨last, hlast⟩ := h a (by simp)
    obtain ⟨next, hnext⟩ := h b (by simp)
    have hrest : ∀ c ∈ rest, ∃ k, key c = .ok k := fun c hc =>
      h c (List.mem_cons_of_mem a (List.mem_cons_of_mem b hc))
    obtain ⟨n, hn⟩ := exists_steady_eq_ok hrest (precedes next last) next
    exact ⟨n + 2, by simp only [ordered, hlast, hnext, Bind.bind, Except.bind, hn]; rfl⟩

theorem exists_longFront_eq_ok {items : List α} (h : ∀ a ∈ items, ∃ k, key a = .ok k) (long : Nat) :
    ∃ n, longFront key long items = .ok n := by
  unfold longFront
  split
  · exact exists_ordered_eq_ok h
  · exact ⟨0, rfl⟩

/-- A run is found without failures, and the keys it leaves for later do not fail either. -/
theorem exists_runFrom_eq_ok {a : α} {as : List α} (h : ∀ b ∈ a :: as, ∃ k, key b = .ok k)
    (long : Nat) (inBlocks : Bool) (start : Nat) :
    ∃ run, runFrom key long inBlocks start a as = .ok run ∧
      ∀ b ∈ run.unsorted, ∃ k, key b = .ok k := by
  have htake : ∀ n, ∀ b ∈ a :: as.take n, ∃ k, key b = .ok k := fun n b hb =>
    h b ((List.mem_cons.mp hb).elim (fun e => e ▸ List.mem_cons_self)
      fun hb => List.mem_cons_of_mem a (List.mem_of_mem_take hb))
  obtain ⟨front, hfront⟩ := exists_longFront_eq_ok h long
  simp only [runFrom, hfront, Bind.bind, Except.bind]
  split
  · exact ⟨_, rfl, by simp⟩
  · split
    · rw [ask_eq_ok (htake _)]
      exact ⟨_, rfl, by simp⟩
    · exact ⟨_, rfl, htake _⟩

theorem exists_join_eq_ok {a b : Run α} (ha : ∀ c ∈ a.unsorted, ∃ k, key c = .ok k)
    (hb : ∀ c ∈ b.unsorted, ∃ k, key c = .ok k) :
    ∃ run, join key a b = .ok run ∧ ∀ c ∈ run.unsorted, ∃ k, key c = .ok k := by
  unfold join
  split
  · rw [askStretch, askStretch, ask_eq_ok ha, ask_eq_ok hb]
    exact ⟨_, rfl, by simp⟩
  · exact ⟨_, rfl, fun c hc => (List.mem_append.mp hc).elim (ha c) (hb c)⟩

theorem exists_joinBack_eq_ok (depth : Nat) {last : Run α} {before : List (Run α × Nat)}
    (hlast : ∀ c ∈ last.unsorted, ∃ k, key c = .ok k)
    (hbefore : ∀ r ∈ before, ∀ c ∈ r.1.unsorted, ∃ k, key c = .ok k) :
    ∃ run rest, joinBack key depth last before = .ok (run, rest) ∧
      (∀ c ∈ run.unsorted, ∃ k, key c = .ok k) ∧
      ∀ r ∈ rest, ∀ c ∈ r.1.unsorted, ∃ k, key c = .ok k := by
  induction before generalizing last with
  | nil => exact ⟨last, [], rfl, hlast, by simp⟩
  | cons r before ih =>
    simp only [joinBack]
    split
    · obtain ⟨joined, hjoin, hjoined⟩ := exists_join_eq_ok (hbefore r List.mem_cons_self) hlast
      simp only [hjoin, Bind.bind, Except.bind]
      exact ih hjoined fun s hs => hbefore s (List.mem_cons_of_mem r hs)
    · exact ⟨last, r :: before, rfl, hlast, hbefore⟩

theorem runs_eq_ok (count : Nat) {last : Run α} {before : List (Run α × Nat)} {items : List α}
    (hlast : ∀ c ∈ last.unsorted, ∃ k, key c = .ok k)
    (hbefore : ∀ r ∈ before, ∀ c ∈ r.1.unsorted, ∃ k, key c = .ok k)
    (h : ∀ a ∈ items, ∃ k, key a = .ok k) : runs key count last before items = .ok () := by
  match items with
  | [] =>
    obtain ⟨whole, rest, hjoin, hwhole, -⟩ := exists_joinBack_eq_ok 0 hlast hbefore
    rw [runs, hjoin]
    exact ask_eq_ok hwhole _
  | a :: as =>
    obtain ⟨next, hnext, hunsorted⟩ := exists_runFrom_eq_ok h (longFrom count)
      (decide (count ≤ maxInBlocks)) (last.start + last.size)
    obtain ⟨run, rest, hjoin, hrun, hrest⟩ :=
      exists_joinBack_eq_ok (depth count last next) hlast hbefore
    rw [runs, hnext]
    simp only [Bind.bind, Except.bind, hjoin]
    refine runs_eq_ok count hunsorted (fun r hr => ?_) fun b hb =>
      h b (List.mem_cons_of_mem a (List.mem_of_mem_drop hb))
    rcases List.mem_cons.mp hr with rfl | hr
    · exact hrun
    · exact hrest r hr
termination_by items.length
decreasing_by simp only [List.length_drop, List.length_cons]; omega

end Survey

open Survey in
/-- Asks for the keys of a list in the order in which sorting it does. -/
def survey {α ε : Type} (key : α → Except ε (List Int)) (items : List α) : Except ε Unit :=
  match items with
  | [] => .ok ()
  | a :: as =>
      let count := as.length + 1
      if count ≤ maxInserted then ask key (a :: as) (byInsertion 1 count)
      else do
        let front ← runFrom key (longFrom count) (count ≤ maxInBlocks) 0 a as
        runs key count front [] (as.drop (front.size - 1))

/-- A survey fails only where a key does. -/
theorem survey_eq_ok {α ε : Type} {key : α → Except ε (List Int)} {items : List α}
    (h : ∀ a ∈ items, ∃ k, key a = .ok k) : survey key items = .ok () := by
  match items with
  | [] => rfl
  | a :: as =>
    simp only [survey]
    split
    · exact Survey.ask_eq_ok h _
    · obtain ⟨front, hfront, hunsorted⟩ := Survey.exists_runFrom_eq_ok h
        (Survey.longFrom (as.length + 1)) (decide (as.length + 1 ≤ Survey.maxInBlocks)) 0
      rw [hfront]
      exact Survey.runs_eq_ok _ hunsorted (by simp) fun b hb =>
        h b (List.mem_cons_of_mem a (List.mem_of_mem_drop hb))

end Lotbook
