/-
Deka/Vm/ListMutation.lean

What `copyWithin` and `sort` leave in a list.

`copyWithin` copies upwards in place.  Where the target stands right of the start, an
element is read after it was overwritten as soon as the two ranges meet, so what arrives is
the beginning of the source over and over (`Repeats`).

`sort` hands its comparison to the library.  An incomparable pair counts as equal, and with
a NaN among the numbers the comparison is no preorder any more unless all other numbers are
equal anyway (`Comparable`).
-/
import Deka.Lib.Double
import Deka.Lib.Fallible
import Deka.Vm.Panics
import Deka.Vm.Sample

namespace Deka.Vm

open Deka.Lib

set_option linter.dupNamespace false

variable {F σ : Type}

/-! ### Operands -/

/-- A machine with these operands on top. -/
def State.onStack (vm : Vm F σ) (frame : Frame) (frames : List Frame)
    (trace : List (Event F σ)) (stack : List Handle) : State F σ :=
  { vm, frames := { frame with stack } :: frames, trace }

section Operands

variable {vm : Vm F σ} {frame : Frame} {frames : List Frame} {trace : List (Event F σ)}
  {h : Handle} {stack : List Handle}

theorem M.exec_pop_cons :
    (M.pop : M F σ Handle).exec (State.onStack vm frame frames trace (h :: stack)) =
      (.ok h, State.onStack vm frame frames trace stack) := rfl

theorem M.exec_push :
    (M.push h : M F σ Unit).exec (State.onStack vm frame frames trace stack) =
      (.ok (), State.onStack vm frame frames trace (h :: stack)) := rfl

theorem M.exec_get_lookup {s : State F σ} {v : Value F} (hv : s.vm.heap.lookup h = some v) :
    (M.get h : M F σ (Value F)).exec s = (.ok v, s) := by
  rw [M.exec_get, Heap.get_of_lookup hv]

theorem M.exec_numeric [Platform F] {n : F} (hn : vm.heap.lookup h = some (.number n)) :
    (M.numeric : M F σ F).exec (State.onStack vm frame frames trace (h :: stack)) =
      (.ok n, State.onStack vm frame frames trace stack) := by
  rw [M.numeric, Prog.exec_bind_ok M.exec_pop_cons, Prog.exec_bind_ok (M.exec_get_lookup hn)]
  rfl

/-- The machine after the list at `h` was replaced through a mutable reference. -/
def Vm.store (vm : Vm F σ) (h : Handle) (items : List Handle) : Vm F σ :=
  { vm with heap := (vm.heap.touch h).write h (.list items) }

theorem Vm.lookup_store {v : Value F} (hv : vm.heap.lookup h = some v) (items : List Handle)
    (k : Handle) : (vm.store h items).heap.lookup k =
      if k = h then some (.list items) else vm.heap.lookup k := by
  show ((vm.heap.touch h).write h (.list items)).lookup k = _
  rw [Heap.lookup_write (v := v), Heap.lookup_touch]
  rw [Heap.lookup_touch]
  exact hv

theorem M.exec_mutate_list {items items' : List Handle} {message : String}
    {f : List Handle → Except Fault (List Handle × Unit)}
    (hv : vm.heap.lookup h = some (.list items)) (hf : f items = .ok (items', ())) :
    (M.mutate h (onList message f) : M F σ Unit).exec (State.onStack vm frame frames trace stack) =
      (.ok (), State.onStack (vm.store h items') frame frames trace stack) := by
  rw [M.mutate, M.liftHeap, Prog.exec_within, HeapM.mutate, Prog.exec_ofExec]
  have hget : vm.heap.get h = .ok (.list items) := Heap.get_of_lookup hv
  have hview : (State.onStack vm frame frames trace stack).vm.heap = vm.heap := rfl
  rw [hview, hget]
  simp only [onList, hf]
  rfl

end Operands

/-! ### copyWithin -/

/-- What one pass of the loop leaves: outside of the cells still to be written nothing
changes, and a written cell holds its source as it stood when it was read. -/
theorem copyCells_spec (start target count : Nat) : ∀ (i : Nat) (xs : List Handle),
    start + i + count ≤ xs.length → target + i + count ≤ xs.length →
    ∃ ys, copyCells start target i count xs = .ok ys ∧ ys.length = xs.length ∧
      (∀ j, j < target + i ∨ target + i + count ≤ j → ys[j]? = xs[j]?) ∧
      ∀ k, i ≤ k → k < i + count →
        ys[target + k]? = if start < target then ys[start + k]? else xs[start + k]? := by
  induction count with
  | zero =>
    intro i xs _ _
    exact ⟨xs, rfl, rfl, fun _ _ => rfl, fun k hik hk => absurd hk (by omega)⟩
  | succ count ih =>
    intro i xs hstart htarget
    have hread : xs[start + i]? = some xs[start + i] := List.getElem?_eq_getElem (by omega)
    obtain ⟨ys, hrun, hlen, hout, hin⟩ := ih (i + 1) (xs.set (target + i) xs[start + i])
      (by rw [List.length_set]; omega) (by rw [List.length_set]; omega)
    rw [List.length_set] at hlen
    -- the cell written in this pass, and the cells this pass leaves alone
    have hcell : ys[target + i]? = xs[start + i]? := by
      rw [hout _ (Or.inl (by omega)), List.getElem?_set_self (by omega), hread]
    have hkept : ∀ j, j < target + i ∨ target + (i + 1) + count ≤ j → ys[j]? = xs[j]? := by
      intro j hj
      rw [hout j (by omega), List.getElem?_set_ne (by omega)]
    refine ⟨ys, ?_, hlen, fun j hj => hkept j (by omega), ?_⟩
    · rw [copyCells, hread]
      dsimp only
      rw [if_pos (by omega)]
      exact hrun
    · intro k hik hk
      rcases Nat.eq_or_lt_of_le hik with rfl | hik
      · rw [hcell]
        split
        · exact (hkept _ (Or.inl (by omega))).symm
        · rfl
      · rw [hin k hik (by omega)]
        split
        · rfl
        · exact List.getElem?_set_ne (by omega)

/-- How many cells are copied. -/
def copyCount (start target : Nat) (xs : List Handle) : Nat :=
  min (xs.length - start) (xs.length - target)

/-- `ys` is `xs` with the cells from `start` on copied over those from `target` on, all at
once. -/
structure Simultaneous (start target : Nat) (xs ys : List Handle) : Prop where
  length : ys.length = xs.length
  copied : ∀ i < copyCount start target xs, ys[target + i]? = xs[start + i]?
  kept : ∀ j, j < target ∨ target + copyCount start target xs ≤ j → ys[j]? = xs[j]?

/-- Where the target stands right of the start and the ranges meet, the source repeats itself
over the distance. -/
def Repeats (start target : Nat) (xs : List Handle) : Prop :=
  start < target → ∀ i, target - start ≤ i → i < copyCount start target xs →
    xs[start + i]? = xs[start + i - (target - start)]?

/-- What the loop leaves is a simultaneous copy exactly where the source repeats itself. -/
theorem copyCells_simultaneous {start target : Nat} {xs : List Handle} (hstart : start ≤ xs.length)
    (htarget : target ≤ xs.length) :
    ∃ ys, copyCells start target 0 (copyCount start target xs) xs = .ok ys ∧
      (Simultaneous start target xs ys ↔ Repeats start target xs) := by
  have hcount : copyCount start target xs ≤ xs.length - start ∧
      copyCount start target xs ≤ xs.length - target :=
    ⟨Nat.min_le_left _ _, Nat.min_le_right _ _⟩
  obtain ⟨ys, hrun, hlen, hkept, hcopied⟩ :=
    copyCells_spec start target (copyCount start target xs) 0 xs (by omega) (by omega)
  refine ⟨ys, hrun, ?_, ?_⟩
  · intro hall hlt i hdist hi
    have hback : start + i = target + (i - (target - start)) := by omega
    calc xs[start + i]? = ys[target + i]? := (hall.copied i hi).symm
      _ = ys[start + i]? := by rw [hcopied i (Nat.zero_le i) (by omega), if_pos hlt]
      _ = xs[start + (i - (target - start))]? := by
        rw [hback]
        exact hall.copied _ (by omega)
      _ = xs[start + i - (target - start)]? := by rw [Nat.add_sub_assoc hdist]
  · intro hrepeats
    refine ⟨hlen, ?_, fun j hj => hkept j (by omega)⟩
    intro i
    induction i using Nat.strong_induction_on with
    | _ i ih =>
      intro hi
      rw [hcopied i (Nat.zero_le i) (by omega)]
      split
      · next hlt =>
        by_cases hdist : target - start ≤ i
        · -- the cell that is read was written before
          have hback : start + i = target + (i - (target - start)) := by omega
          calc ys[start + i]? = ys[target + (i - (target - start))]? := by rw [hback]
            _ = xs[start + (i - (target - start))]? := ih _ (by omega) (by omega)
            _ = xs[start + i - (target - start)]? := by rw [Nat.add_sub_assoc hdist]
            _ = xs[start + i]? := (hrepeats hlt i hdist hi).symm
        · exact hkept _ (Or.inl (by omega))
      · rfl

theorem exec_copyWithin [Platform F] {vm : Vm F σ} {frame : Frame} {frames : List Frame}
    {trace : List (Event F σ)} {stack : List Handle} {start target list : Handle} {n m : F}
    {xs ys : List Handle} (hn : vm.heap.lookup start = some (.number n))
    (hm : vm.heap.lookup target = some (.number m)) (hxs : vm.heap.lookup list = some (.list xs))
    (hrun : copyCells (clamp n xs.length) (clamp m xs.length) 0
      (copyCount (clamp n xs.length) (clamp m xs.length) xs) xs = .ok ys) :
    (M.listMut .copyWithin : M F σ Unit).exec
        (State.onStack vm frame frames trace (start :: target :: list :: stack)) =
      (.ok (), State.onStack (vm.store list ys) frame frames trace (list :: stack)) := by
  rw [M.listMut, Prog.exec_bind_ok (M.exec_numeric hn), Prog.exec_bind_ok (M.exec_numeric hm),
    Prog.exec_bind_ok M.exec_pop_cons, Prog.exec_bind_ok (M.exec_mutate_list hxs ?_)]
  · exact M.exec_push
  · show Except.map _ (copyCells _ _ 0 (copyCount _ _ xs) xs) = _
    rw [hrun]
    rfl

/-- `copyWithin` copies simultaneously exactly where the source repeats itself over the
distance to a target on its right. -/
theorem copyWithin_simultaneous_iff [Platform F] {vm : Vm F σ} {frame : Frame}
    {frames : List Frame} {trace : List (Event F σ)} {stack : List Handle}
    {start target list : Handle} {n m : F} {xs : List Handle}
    (hn : vm.heap.lookup start = some (.number n)) (hm : vm.heap.lookup target = some (.number m))
    (hxs : vm.heap.lookup list = some (.list xs)) :
    (∃ t ys, (M.listMut .copyWithin : M F σ Unit).exec
        (State.onStack vm frame frames trace (start :: target :: list :: stack)) = (.ok (), t) ∧
      t.vm.heap.lookup list = some (.list ys) ∧
      Simultaneous (clamp n xs.length) (clamp m xs.length) xs ys) ↔
    Repeats (clamp n xs.length) (clamp m xs.length) xs := by
  obtain ⟨ys, hrun, hiff⟩ := copyCells_simultaneous (M.clamp_le n xs.length)
    (M.clamp_le m xs.length)
  have hexec : (M.listMut .copyWithin : M F σ Unit).exec
      (State.onStack vm frame frames trace (start :: target :: list :: stack)) =
        (.ok (), State.onStack (vm.store list ys) frame frames trace (list :: stack)) :=
    exec_copyWithin hn hm hxs hrun
  have hstored : (vm.store list ys).heap.lookup list = some (.list ys) := by
    rw [Vm.lookup_store hxs, if_pos rfl]
  rw [← hiff]
  constructor
  · rintro ⟨t, zs, ht, hzs, hall⟩
    rw [hexec] at ht
    cases ht
    have hsame : some (Value.list zs : Value F) = some (.list ys) := hzs.symm.trans hstored
    cases hsame
    exact hall
  · exact fun hall => ⟨_, ys, hexec, hstored, hall⟩

/-- A machine whose heap holds these values, one after the other. -/
def Vm.holding (values : List (Value F)) : Vm F Unit :=
  { Vm.empty { version := 1, functions := [] } {} () with
    heap :=
      { slots := values.map fun v =>
          { value := some v
            generation := 0
            marked := false
            newtype := none
            created := 0
            revision := 0 } } }

def Frame.bare : Frame where
  function := 0
  ip := 0
  locals := []
  stack := []
  slotChildren := none
  thenCall := none
  handlers := []

/-- Three letters, the list of them, and two indices. -/
def threeLetters (start target : Int) : Vm Int Unit :=
  Vm.holding [.string "a", .string "b", .string "c", .list [⟨0, 0⟩, ⟨1, 0⟩, ⟨2, 0⟩],
    .number target, .number start]

/-- A copy to the left. -/
theorem copyWithin_simultaneous_left :
    ∃ t ys, (M.listMut .copyWithin : M Int Unit Unit).exec
        (State.onStack (threeLetters 1 0) Frame.bare [] [] [⟨5, 0⟩, ⟨4, 0⟩, ⟨3, 0⟩]) =
          (.ok (), t) ∧
      t.vm.heap.lookup ⟨3, 0⟩ = some (.list ys) ∧
      Simultaneous (clamp (1 : Int) 3) (clamp (0 : Int) 3) [⟨0, 0⟩, ⟨1, 0⟩, ⟨2, 0⟩] ys := by
  have hxs : (threeLetters 1 0).heap.lookup ⟨3, 0⟩ = some (.list [⟨0, 0⟩, ⟨1, 0⟩, ⟨2, 0⟩]) := rfl
  refine (copyWithin_simultaneous_iff (n := (1 : Int)) (m := (0 : Int)) rfl rfl hxs).mpr ?_
  intro hlt
  exact absurd hlt (by decide)

/-- `["a", "b", "c"].copyWithin(1, 0)` leaves `["a", "a", "a"]`. -/
theorem copyWithin_not_simultaneous :
    ¬ ∃ t ys, (M.listMut .copyWithin : M Int Unit Unit).exec
        (State.onStack (threeLetters 0 1) Frame.bare [] [] [⟨5, 0⟩, ⟨4, 0⟩, ⟨3, 0⟩]) =
          (.ok (), t) ∧
      t.vm.heap.lookup ⟨3, 0⟩ = some (.list ys) ∧
      Simultaneous (clamp (0 : Int) 3) (clamp (1 : Int) 3) [⟨0, 0⟩, ⟨1, 0⟩, ⟨2, 0⟩] ys := by
  rintro ⟨t, ys, hrun, hys, hall⟩
  have hxs : (threeLetters 0 1).heap.lookup ⟨3, 0⟩ = some (.list [⟨0, 0⟩, ⟨1, 0⟩, ⟨2, 0⟩]) := rfl
  have hexec : (M.listMut .copyWithin : M Int Unit Unit).exec
      (State.onStack (threeLetters 0 1) Frame.bare [] [] [⟨5, 0⟩, ⟨4, 0⟩, ⟨3, 0⟩]) =
        (.ok (), State.onStack ((threeLetters 0 1).store ⟨3, 0⟩ [⟨0, 0⟩, ⟨0, 0⟩, ⟨0, 0⟩])
          Frame.bare [] [] [⟨3, 0⟩]) :=
    exec_copyWithin (n := (0 : Int)) (m := (1 : Int)) rfl rfl hxs rfl
  rw [hexec] at hrun
  cases hrun
  cases hys
  have hlast := hall.copied 1 (by decide)
  exact absurd hlast (by decide)

/-! ### sort -/

/-- Merge sort needs its laws on the elements of the list only. -/
theorem mergeSort_on {α : Type} {le : α → α → Bool} {l : List α}
    (total : ∀ a ∈ l, ∀ b ∈ l, (le a b || le b a) = true)
    (trans : ∀ a ∈ l, ∀ b ∈ l, ∀ c ∈ l, le a b = true → le b c = true → le a c = true) :
    (l.mergeSort le).Pairwise (fun a b => le a b = true) ∧
      ∀ c : List α, c.Sublist l → c.Pairwise (fun a b => le a b = true) → c.Sublist (l.mergeSort le) := by
  let r : {x // x ∈ l} → {x // x ∈ l} → Bool := fun a b => le a.1 b.1
  have hmap : (l.attach.mergeSort r).map Subtype.val = l.mergeSort le := by
    rw [List.map_mergeSort (s := le) fun a _ b _ => rfl, List.attach_map_subtype_val]
  have rtrans : ∀ a b c, r a b = true → r b c = true → r a c = true := fun a b c =>
    trans a.1 a.2 b.1 b.2 c.1 c.2
  have rtotal : ∀ a b, (r a b || r b a) = true := fun a b => total a.1 a.2 b.1 b.2
  constructor
  · rw [← hmap, List.pairwise_map]
    exact List.pairwise_mergeSort rtrans rtotal l.attach
  · intro c hc hsorted
    rw [← List.attach_map_subtype_val l] at hc
    obtain ⟨d, hd, rfl⟩ := List.sublist_map_iff.mp hc
    rw [← hmap]
    exact (List.sublist_mergeSort rtrans rtotal (List.pairwise_map.mp hsorted) hd).map _

section Sorting

variable [Platform F]

/-- What can be sorted. -/
def Value.sortable : Value F → Bool
  | .number _ | .string _ => true
  | _ => false

/-- Numbers stand before strings, and nothing stands before something smaller. -/
def Value.Below : Value F → Value F → Prop
  | .number a, .number b => F64.lt b a = false
  | .number _, .string _ => True
  | .string a, .string b => (compare a b).isLE = true
  | _, _ => False

theorem sortKey_ok {v : Value F} (hv : v.sortable = true) : ∃ k, sortKey v = .ok k := by
  cases v with
  | number n => exact ⟨_, rfl⟩
  | string s => exact ⟨_, rfl⟩
  | _ => cases hv

theorem cmp_numbers (a b : F) :
    (SortKey.cmp ⟨0, a, ""⟩ ⟨0, b, ""⟩ : Ordering) =
      if F64.lt a b then .lt else if F64.lt b a then .gt else .eq := by
  show Ordering.then (compare 0 0) (Ordering.then _ (compare "" "")) = _
  rw [show compare "" "" = Ordering.eq from Std.ReflCmp.compare_self]
  cases F64.lt a b <;> cases F64.lt b a <;> rfl

section Keys

variable (laws : Comparing (F64.lt (F := F)) F64.eq) {v w : Value F} {k l : SortKey F}

include laws

theorem lt_self (a : F) : F64.lt a a = false := by
  rcases h : F64.lt a a with - | -
  · rfl
  · rw [laws.asymm h] at h
    cases h

theorem cmp_strings (a b : String) :
    (⟨1, F64.ofNat 0, a⟩ : SortKey F).cmp ⟨1, F64.ofNat 0, b⟩ = compare a b := by
  show Ordering.then (compare 1 1) (Ordering.then _ _) = _
  rw [if_neg (by simp [lt_self laws]), if_neg (by simp [lt_self laws])]
  rfl

/-- The comparison of two keys, read off the values. -/
theorem cmp_isLE (hk : sortKey v = .ok k) (hl : sortKey w = .ok l) :
    (k.cmp l).isLE = true ↔ v.Below w := by
  cases v with
  | number a =>
    cases w with
    | number b =>
      cases hk
      cases hl
      rw [cmp_numbers, Value.Below]
      rcases hba : F64.lt b a with - | -
      · cases F64.lt a b <;> simp
      · simp [laws.asymm hba]
    | string b =>
      cases hk
      cases hl
      exact ⟨fun _ => trivial, fun _ => rfl⟩
    | _ => cases hl
  | string a =>
    cases w with
    | number b =>
      cases hk
      cases hl
      constructor
      · intro h
        cases h
      · intro h
        cases h
    | string b =>
      cases hk
      cases hl
      rw [cmp_strings laws, Value.Below]
    | _ => cases hl
  | _ => cases hk

/-- The comparison reads the same from both sides. -/
theorem cmp_swap (hk : sortKey v = .ok k) (hl : sortKey w = .ok l) :
    (k.cmp l).swap = l.cmp k := by
  cases v with
  | number a =>
    cases w with
    | number b =>
      cases hk
      cases hl
      rw [cmp_numbers, cmp_numbers]
      rcases hab : F64.lt a b with - | -
      · cases F64.lt b a <;> rfl
      · simp [laws.asymm hab]
    | string b =>
      cases hk
      cases hl
      rfl
    | _ => cases hl
  | string a =>
    cases w with
    | number b =>
      cases hk
      cases hl
      rfl
    | string b =>
      cases hk
      cases hl
      rw [cmp_strings laws, cmp_strings laws]
      exact Std.OrientedCmp.eq_swap.symm
    | _ => cases hl
  | _ => cases hk

/-- There is no NaN among the numbers, or no two of them are in order. -/
def Comparable (values : List (Value F)) : Prop :=
  (∀ n, .number n ∈ values → F64.eq n n = true) ∨
    ∀ a b, .number a ∈ values → .number b ∈ values → F64.lt a b = false

theorem below_total (hv : v.sortable = true) (hw : w.sortable = true) : v.Below w ∨ w.Below v := by
  cases v with
  | number a =>
    cases w with
    | number b =>
      rcases hba : F64.lt b a with - | -
      · exact Or.inl hba
      · exact Or.inr (laws.asymm hba)
    | string b => exact Or.inl trivial
    | _ => cases hw
  | string a =>
    cases w with
    | number b => exact Or.inr trivial
    | string b =>
      show (compare a b).isLE = true ∨ (compare b a).isLE = true
      have hswap : compare b a = (compare a b).swap := Std.OrientedCmp.eq_swap
      rw [hswap]
      cases compare a b <;> simp
    | _ => cases hw
  | _ => cases hv

theorem below_trans {values : List (Value F)} (hc : Comparable values) {u v w : Value F}
    (hu : u ∈ values) (hv : v ∈ values) (hw : w ∈ values) (huv : u.Below v) (hvw : v.Below w) :
    u.Below w := by
  cases u with
  | number a =>
    cases v with
    | number b =>
      cases w with
      | number c =>
        rcases hca : F64.lt c a with - | -
        · exact hca
        · rcases hc with hnumbers | hflat
          · rcases laws.between (hnumbers b hv) hca with hcb | hba
            · exact absurd hcb (by rw [show F64.lt c b = false from hvw]; decide)
            · exact absurd hba (by rw [show F64.lt b a = false from huv]; decide)
          · exact hflat c a hw hu
      | string c => trivial
      | _ => cases hvw
    | string b =>
      cases w with
      | string c => trivial
      | _ => cases hvw
    | _ => cases huv
  | string a =>
    cases v with
    | string b =>
      cases w with
      | string c =>
        have hab : (compare a b).isLE = true := huv
        exact Std.TransCmp.isLE_trans hab hvw
      | _ => cases hvw
    | _ => cases huv
  | _ => cases huv

/-- The comparison is a total preorder on the keys exactly where the numbers are comparable. -/
theorem orders_iff {values : List (Value F)} {keys : List (SortKey F)}
    (hkeys : List.Forall₂ (fun v k => sortKey v = .ok k) values keys) :
    SortKey.Orders keys ↔ Comparable values := by
  have hsortable : ∀ {v : Value F} {k}, sortKey v = .ok k → v.sortable = true := by
    intro v k hk
    cases v with
    | number | string => rfl
    | _ => cases hk
  constructor
  · rintro ⟨-, -, htrans⟩
    by_contra hnot
    simp only [Comparable, not_or, not_forall] at hnot
    obtain ⟨⟨n, hn, hnan⟩, a, b, ha, hb, hab⟩ := hnot
    obtain ⟨k, hk, hkn⟩ := exists_of_forall₂ hkeys hn
    obtain ⟨i, hi, hia⟩ := exists_of_forall₂ hkeys ha
    obtain ⟨j, hj, hjb⟩ := exists_of_forall₂ hkeys hb
    -- the NaN stands between the larger number and the smaller one
    have hbn : (Value.number b).Below (.number n) := by
      rcases h : F64.lt n b with - | -
      · exact h
      · exact absurd (laws.number_left h) hnan
    have hna : (Value.number n).Below (.number a) := by
      rcases h : F64.lt a n with - | -
      · exact h
      · exact absurd (laws.number_right h) hnan
    have hba : (Value.number b).Below (.number a) := by
      rw [← cmp_isLE laws hjb hia]
      exact htrans j hj k hk i hi ((cmp_isLE laws hjb hkn).mpr hbn) ((cmp_isLE laws hkn hia).mpr hna)
    exact hab hba
  · intro hc
    have hkeys' := hkeys.flip
    refine ⟨?_, ?_, ?_⟩
    · intro k hk l hl
      obtain ⟨v, hv, hkv⟩ := exists_of_forall₂ hkeys' hk
      obtain ⟨w, hw, hlw⟩ := exists_of_forall₂ hkeys' hl
      rw [cmp_isLE laws hkv hlw, cmp_isLE laws hlw hkv]
      exact below_total laws (hsortable hkv) (hsortable hlw)
    · intro k hk l hl
      obtain ⟨v, hv, hkv⟩ := exists_of_forall₂ hkeys' hk
      obtain ⟨w, hw, hlw⟩ := exists_of_forall₂ hkeys' hl
      exact cmp_swap laws hkv hlw
    · intro k hk l hl m hm
      obtain ⟨u, hu, hku⟩ := exists_of_forall₂ hkeys' hk
      obtain ⟨v, hv, hlv⟩ := exists_of_forall₂ hkeys' hl
      obtain ⟨w, hw, hmw⟩ := exists_of_forall₂ hkeys' hm
      rw [cmp_isLE laws hku hlv, cmp_isLE laws hlv hmw, cmp_isLE laws hku hmw]
      exact below_trans laws hc hu hv hw

end Keys

/-- The elements of a list that can be sorted, with their keys. -/
theorem sortKeys_spec {H : Heap F} {items : List Handle} {values : List (Value F)}
    (hvalues : List.Forall₂ (fun h v => H.lookup h = some v ∧ v.sortable = true) items values) :
    ∃ keys, H.sortKeys items = .ok keys ∧
      List.Forall₂ (fun v k => sortKey v = .ok k) values keys ∧
      List.Forall₂ (fun h k => ∃ v, H.lookup h = some v ∧ sortKey v = .ok k) items keys := by
  induction hvalues with
  | nil => exact ⟨[], rfl, .nil, .nil⟩
  | @cons h v items values hv _ ih =>
    obtain ⟨keys, hkeys, hall, hall'⟩ := ih
    obtain ⟨k, hk⟩ := sortKey_ok hv.2
    refine ⟨k :: keys, ?_, .cons hk hall, .cons ⟨v, hv.1, hk⟩ hall'⟩
    rw [Heap.sortKeys] at hkeys ⊢
    rw [List.mapM_cons, hkeys, Heap.get_of_lookup hv.1]
    show (sortKey v >>= _) = _
    rw [hk]
    rfl

/-- `h` may stand before `k` in a sorted list. -/
def Heap.Below (H : Heap F) (h k : Handle) : Prop :=
  ∃ v w, H.lookup h = some v ∧ H.lookup k = some w ∧ v.Below w

/-- `ys` is `items` sorted: whatever stood in order before still does. -/
structure Sorts (H : Heap F) (items ys : List Handle) : Prop where
  perm : ys.Perm items
  ordered : ys.Pairwise H.Below
  stable : ∀ c : List Handle, c.Sublist items → c.Pairwise H.Below → c.Sublist ys

theorem sorts_mergeSort (laws : Comparing (F64.lt (F := F)) F64.eq) {H : Heap F}
    {items : List Handle} {keys : List (SortKey F)}
    (hkeys : List.Forall₂ (fun h k => ∃ v, H.lookup h = some v ∧ sortKey v = .ok k) items keys)
    (horders : SortKey.Orders keys) :
    Sorts H items (((keys.zip items).mergeSort fun a b => (a.1.cmp b.1).isLE).map Prod.snd) := by
  obtain ⟨hlen, hzip⟩ := List.forall₂_iff_zip.mp hkeys.flip
  have hsnd : (keys.zip items).map Prod.snd = items := List.map_snd_zip (Nat.le_of_eq hlen.symm)
  -- the comparison of two entries is the order of their handles
  have hbelow : ∀ a ∈ keys.zip items, ∀ b ∈ keys.zip items,
      ((a.1.cmp b.1).isLE = true ↔ H.Below a.2 b.2) := by
    intro a ha b hb
    obtain ⟨v, hv, hk⟩ := hzip ha
    obtain ⟨w, hw, hl⟩ := hzip hb
    rw [cmp_isLE laws hk hl]
    constructor
    · exact fun h => ⟨v, w, hv, hw, h⟩
    · rintro ⟨v', w', hv', hw', h⟩
      rw [hv] at hv'
      rw [hw] at hw'
      cases hv'
      cases hw'
      exact h
  obtain ⟨htotal, -, htrans⟩ := horders
  obtain ⟨hsorted, hstable⟩ := @mergeSort_on _ (fun a b => (a.1.cmp b.1).isLE) (keys.zip items)
    (fun a ha b hb => by
      have hab := htotal a.1 (List.of_mem_zip ha).1 b.1 (List.of_mem_zip hb).1
      rwa [Bool.or_eq_true])
    (fun a ha b hb c hc => htrans a.1 (List.of_mem_zip ha).1 b.1 (List.of_mem_zip hb).1 c.1
      (List.of_mem_zip hc).1)
  refine ⟨?_, ?_, ?_⟩
  · have hperm := (List.mergeSort_perm (keys.zip items) fun a b => (a.1.cmp b.1).isLE).map Prod.snd
    rwa [hsnd] at hperm
  · rw [List.pairwise_map]
    refine hsorted.imp_of_mem fun {a b} ha hb hab => ?_
    exact (hbelow a (List.mem_mergeSort.mp ha) b (List.mem_mergeSort.mp hb)).mp hab
  · intro c hc hordered
    rw [← hsnd] at hc
    obtain ⟨d, hd, rfl⟩ := List.sublist_map_iff.mp hc
    refine (hstable d hd ?_).map Prod.snd
    refine (List.pairwise_map.mp hordered).imp_of_mem fun {a b} ha hb hab => ?_
    exact (hbelow a (hd.subset ha) b (hd.subset hb)).mpr hab

section Run

variable {vm : Vm F σ} {frame : Frame} {frames : List Frame} {trace : List (Event F σ)}
  {stack : List Handle} {list : Handle} {items : List Handle}

theorem exec_sort {keys : List (SortKey F)} {ranked : List (SortKey F × Handle)}
    (hitems : vm.heap.lookup list = some (.list items)) (hkeys : vm.heap.sortKeys items = .ok keys)
    (hsort : Platform.sortBy (keys.zip items) = some ranked) :
    (M.listMut .sort : M F σ Unit).exec (State.onStack vm frame frames trace (list :: stack)) =
      (.ok (), State.onStack (vm.store list (ranked.map Prod.snd)) frame frames trace
        (list :: stack)) := by
  have hsorted : (M.sortItems items : M F σ (List Handle)).exec
      (State.onStack vm frame frames trace stack) =
        (.ok (ranked.map Prod.snd), State.onStack vm frame frames trace stack) := by
    have hread := M.exec_sortKeys (State.onStack vm frame frames trace stack) items
    rw [show (State.onStack vm frame frames trace stack).vm.heap.sortKeys items = .ok keys
      from hkeys] at hread
    rw [M.sortItems, Prog.exec_bind_ok hread, hsort]
    rfl
  rw [M.listMut, Prog.exec_bind_ok M.exec_pop_cons,
    Prog.exec_bind_ok (M.exec_get_lookup (v := .list items) hitems)]
  dsimp only
  rw [Prog.exec_bind_ok hsorted, Prog.exec_bind_ok (M.exec_mutate_list hitems rfl)]
  exact M.exec_push

/-- `sort` compares by a total preorder, and leaves the list stably sorted, exactly where
its numbers are comparable. -/
theorem sort_sorts_iff (laws : Comparing (F64.lt (F := F)) F64.eq) {values : List (Value F)}
    (hitems : vm.heap.lookup list = some (.list items))
    (hvalues : List.Forall₂ (fun h v => vm.heap.lookup h = some v ∧ v.sortable = true) items
      values) :
    (∃ keys, vm.heap.sortKeys items = .ok keys ∧ SortKey.Orders keys ∧
      ∃ t ys, (M.listMut .sort : M F σ Unit).exec
          (State.onStack vm frame frames trace (list :: stack)) = (.ok (), t) ∧
        t.vm.heap.lookup list = some (.list ys) ∧ Sorts vm.heap items ys) ↔
      Comparable values := by
  obtain ⟨keys, hkeys, hall, hall'⟩ := sortKeys_spec hvalues
  rw [← orders_iff laws hall]
  constructor
  · rintro ⟨keys', hkeys', horders, -⟩
    rw [hkeys] at hkeys'
    cases hkeys'
    exact horders
  · intro horders
    have hzip : (keys.zip items).map Prod.fst = keys :=
      List.map_fst_zip (Nat.le_of_eq hall'.length_eq.symm)
    have hsort := Platform.sortBy_of_orders (l := keys.zip items) (by rwa [hzip])
    refine ⟨keys, hkeys, horders, _, _, exec_sort hitems hkeys hsort, ?_,
      sorts_mergeSort laws hall' horders⟩
    exact (Vm.lookup_store hitems _ list).trans (if_pos rfl)

end Run

end Sorting

/-- Whole numbers and a NaN, which every quotient by zero is. -/
instance : F64 (Option Int) where
  ofNat n := some n
  ofInt n := some n
  add a b := do return (← a) + (← b)
  sub a b := do return (← a) - (← b)
  mul a b := do return (← a) * (← b)
  div a b := do
    let d ← b
    if d = 0 then none else return (← a).tdiv d
  rem a b := do
    let d ← b
    if d = 0 then none else return (← a).tmod d
  neg a := a.map (- ·)
  lt a b := (a.bind fun x => b.map fun y => decide (x < y)).getD false
  le a b := (a.bind fun x => b.map fun y => decide (x ≤ y)).getD false
  eq a b := (a.bind fun x => b.map fun y => decide (x = y)).getD false
  isFinite a := a.isSome
  isWhole a := a.isSome
  truncI64 a := a.getD 0
  toUsize a := (a.getD 0).toNat
  isInfinity _ := false
  isNegInfinity _ := false
  display
    | some n => toString n
    | none => "NaN"

theorem comparing_whole : Comparing (F64.lt (F := Option Int)) F64.eq where
  asymm := by
    rintro (- | a) (- | b) h <;> simp_all [F64.lt, Int.le_of_lt]
  number_left := by
    rintro (- | a) (- | b) h <;> simp_all [F64.lt, F64.eq]
  number_right := by
    rintro (- | a) (- | b) h <;> simp_all [F64.lt, F64.eq]
  between := by
    rintro (- | a) (- | b) (- | c) hb h <;> simp_all [F64.lt, F64.eq]
    omega

instance (keys : List (SortKey (Option Int))) : Decidable (SortKey.Orders keys) :=
  inferInstanceAs (Decidable (_ ∧ _ ∧ _))

/-- A sort that leaves alone what it cannot order, as an insertion from the left leaves
`[2, NaN, 1]` alone. -/
instance : Platform (Option Int) where
  sortBy l :=
    if SortKey.Orders (l.map Prod.fst) then some (l.mergeSort fun a b => (a.1.cmp b.1).isLE)
    else some l
  sortBy_perm h := by
    split at h
    · cases h
      exact List.mergeSort_perm _ _
    · cases h
      exact .refl _
  sortBy_of_orders h := if_pos h
  nativeDepth := 1000
  quote s := "\"" ++ s ++ "\""
  jsonToString _ := .error "unsupported document"
  jsonFromStr _ := .error "unsupported document"

/-- Three elements and the list of them. -/
def threeElements (a b c : Value (Option Int)) : Vm (Option Int) Unit :=
  Vm.holding [a, b, c, .list [⟨0, 0⟩, ⟨1, 0⟩, ⟨2, 0⟩]]

/-- `["b", 2, 1]` is sorted. -/
theorem sort_sorts_mixed :
    ∃ keys, (threeElements (.string "b") (.number (some 2)) (.number (some 1))).heap.sortKeys
        [⟨0, 0⟩, ⟨1, 0⟩, ⟨2, 0⟩] = .ok keys ∧ SortKey.Orders keys ∧
      ∃ t ys, (M.listMut .sort : M (Option Int) Unit Unit).exec
          (State.onStack (threeElements (.string "b") (.number (some 2)) (.number (some 1)))
            Frame.bare [] [] [⟨3, 0⟩]) = (.ok (), t) ∧
        t.vm.heap.lookup ⟨3, 0⟩ = some (.list ys) ∧
        Sorts (threeElements (.string "b") (.number (some 2)) (.number (some 1))).heap
          [⟨0, 0⟩, ⟨1, 0⟩, ⟨2, 0⟩] ys := by
  have hnumbers : Comparable [.string "b", .number (some 2), .number (some (1 : Int))] := by
    left
    intro n hn
    simp only [List.mem_cons, List.not_mem_nil, or_false, reduceCtorEq, Value.number.injEq,
      false_or] at hn
    rcases hn with rfl | rfl <;> rfl
  refine (sort_sorts_iff comparing_whole rfl ?_).mpr hnumbers
  exact .cons ⟨rfl, rfl⟩ (.cons ⟨rfl, rfl⟩ (.cons ⟨rfl, rfl⟩ .nil))

/-- `[2, NaN, 1]` is not: the comparison is no preorder on it, and 1 stays behind 2. -/
theorem sort_leaves_unsorted :
    (∃ keys, (threeElements (.number (some 2)) (.number none) (.number (some 1))).heap.sortKeys
        [⟨0, 0⟩, ⟨1, 0⟩, ⟨2, 0⟩] = .ok keys ∧ ¬ SortKey.Orders keys) ∧
      ∃ t ys, (M.listMut .sort : M (Option Int) Unit Unit).exec
          (State.onStack (threeElements (.number (some 2)) (.number none) (.number (some 1)))
            Frame.bare [] [] [⟨3, 0⟩]) = (.ok (), t) ∧
        t.vm.heap.lookup ⟨3, 0⟩ = some (.list ys) ∧
        ¬ Sorts (threeElements (.number (some 2)) (.number none) (.number (some 1))).heap
          [⟨0, 0⟩, ⟨1, 0⟩, ⟨2, 0⟩] ys := by
  have hitems : (threeElements (.number (some 2)) (.number none) (.number (some 1))).heap.lookup
      ⟨3, 0⟩ = some (.list [⟨0, 0⟩, ⟨1, 0⟩, ⟨2, 0⟩]) := rfl
  refine ⟨⟨_, rfl, by decide⟩, _, _, exec_sort hitems rfl rfl, rfl, ?_⟩
  intro hsorts
  obtain ⟨v, w, hv, hw, hbelow⟩ := List.rel_of_pairwise_cons hsorts.ordered
    (List.mem_cons_of_mem _ List.mem_cons_self)
  cases hv
  cases hw
  have hlt : F64.lt (some 1 : Option Int) (some 2) = false := hbelow
  exact absurd hlt (by decide)

end Deka.Vm
