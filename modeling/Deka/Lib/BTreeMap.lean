/-
Deka/Lib/BTreeMap.lean

Ordered maps as association lists.  `insert` keeps the keys in ascending
order, so that iterating over a map visits the keys in the order in which a
`BTreeMap` visits them; a lookup is a scan for the key.

None of the lookup laws needs the list to be sorted: inserting a key in front
of a larger one never hides another key, and a scan finds the first entry of a
key wherever it stands.  The order only matters to code that iterates.
-/
import Mathlib.Data.List.Basic
import Mathlib.Data.Set.Basic

namespace Deka.Lib

/-- A map with keys `κ` and values `α`, as the list of its entries. -/
abbrev BTreeMap (κ α : Type) := List (κ × α)

namespace BTreeMap

variable {κ α : Type} [DecidableEq κ]

def get? (m : BTreeMap κ α) (k : κ) : Option α :=
  match m with
  | [] => none
  | (j, v) :: rest => if j = k then some v else get? rest k

def erase (m : BTreeMap κ α) (k : κ) : BTreeMap κ α :=
  m.filter fun e => e.1 ≠ k

/-- Put a new entry in front of the first larger key. -/
def place [Ord κ] (m : BTreeMap κ α) (k : κ) (v : α) : BTreeMap κ α :=
  match m with
  | [] => [(k, v)]
  | (j, w) :: rest =>
      if compare k j = .lt then (k, v) :: (j, w) :: rest
      else (j, w) :: place rest k v

/-- Set the value of `k`, replacing an older one. -/
def insert [Ord κ] (m : BTreeMap κ α) (k : κ) (v : α) : BTreeMap κ α :=
  place (erase m k) k v

def containsKey (m : BTreeMap κ α) (k : κ) : Bool := (get? m k).isSome

def keys (m : BTreeMap κ α) : List κ := m.map Prod.fst

def values (m : BTreeMap κ α) : List α := m.map Prod.snd

/-- Insert every entry of `es`, in order. -/
def extend [Ord κ] (m : BTreeMap κ α) (es : List (κ × α)) : BTreeMap κ α :=
  es.foldl (fun m e => insert m e.1 e.2) m

@[simp] theorem extend_nil [Ord κ] (m : BTreeMap κ α) : extend m [] = m := rfl

@[simp] theorem extend_cons [Ord κ] (m : BTreeMap κ α) (e : κ × α) (es : List (κ × α)) :
    extend m (e :: es) = extend (insert m e.1 e.2) es := rfl

/-! ### Lookups -/

@[simp] theorem get?_nil (k : κ) : get? ([] : BTreeMap κ α) k = none := rfl

theorem get?_cons (j : κ) (v : α) (m : BTreeMap κ α) (k : κ) :
    get? ((j, v) :: m) k = if j = k then some v else get? m k := rfl

/-- A found value is the value of an entry. -/
theorem mem_of_get? {m : BTreeMap κ α} {k : κ} {v : α} (h : get? m k = some v) :
    (k, v) ∈ m := by
  induction m with
  | nil => simp at h
  | cons e rest ih =>
      obtain ⟨j, w⟩ := e
      rw [get?_cons] at h
      by_cases hj : j = k
      · rw [if_pos hj] at h
        cases h
        simp [hj]
      · rw [if_neg hj] at h
        exact List.mem_cons_of_mem _ (ih h)

theorem mem_values_of_get? {m : BTreeMap κ α} {k : κ} {v : α} (h : get? m k = some v) :
    v ∈ values m :=
  List.mem_map.mpr ⟨(k, v), mem_of_get? h, rfl⟩

/-- A key has a value exactly when some entry carries it. -/
theorem get?_isSome_iff {m : BTreeMap κ α} {k : κ} :
    (get? m k).isSome ↔ k ∈ keys m := by
  induction m with
  | nil => simp [keys]
  | cons e rest ih =>
      obtain ⟨j, w⟩ := e
      rw [get?_cons]
      by_cases hj : j = k
      · simp [hj, keys]
      · simp only [if_neg hj, ih, keys, List.map_cons, List.mem_cons]
        constructor
        · exact Or.inr
        · rintro (rfl | h)
          · exact absurd rfl hj
          · exact h

theorem get?_eq_none_iff {m : BTreeMap κ α} {k : κ} :
    get? m k = none ↔ k ∉ keys m := by
  rw [← get?_isSome_iff]
  cases get? m k <;> simp

/-! ### Removal -/

theorem mem_erase {m : BTreeMap κ α} {k : κ} {e : κ × α} :
    e ∈ erase m k ↔ e ∈ m ∧ e.1 ≠ k := by
  simp [erase]

theorem get?_erase (m : BTreeMap κ α) (k j : κ) :
    get? (erase m k) j = if k = j then none else get? m j := by
  induction m with
  | nil => simp [erase]
  | cons e rest ih =>
      obtain ⟨i, w⟩ := e
      by_cases hik : i = k
      · have hdrop : erase ((i, w) :: rest) k = erase rest k := by simp [erase, hik]
        rw [hdrop, ih, get?_cons]
        split
        · rfl
        · next hkj => rw [if_neg (by rw [hik]; exact hkj)]
      · have hkeep : erase ((i, w) :: rest) k = (i, w) :: erase rest k := by
          simp [erase, hik]
        rw [hkeep, get?_cons, get?_cons, ih]
        by_cases hij : i = j
        · subst hij
          simp [Ne.symm hik]
        · simp [hij]

omit [DecidableEq κ] in
theorem nodup_keys_filter {m : BTreeMap κ α} (h : (keys m).Nodup) (p : κ × α → Bool) :
    (keys (m.filter p)).Nodup :=
  h.sublist (List.filter_sublist.map Prod.fst)

theorem nodup_keys_erase {m : BTreeMap κ α} (h : (keys m).Nodup) (k : κ) :
    (keys (erase m k)).Nodup :=
  nodup_keys_filter h _

/-- Erasing a key that is not there changes nothing. -/
theorem erase_of_not_mem {m : BTreeMap κ α} {k : κ} (h : k ∉ keys m) : erase m k = m := by
  refine List.filter_eq_self.mpr fun e he => ?_
  simp only [ne_eq, decide_not, Bool.not_eq_eq_eq_not, Bool.not_true, decide_eq_false_iff_not]
  rintro rfl
  exact h (List.mem_map.mpr ⟨e, he, rfl⟩)

theorem not_mem_keys_erase (m : BTreeMap κ α) (k : κ) : k ∉ keys (erase m k) := by
  simp [keys, erase]

/-- With distinct keys every entry is found under its key. -/
theorem get?_of_mem {m : BTreeMap κ α} (hd : (keys m).Nodup) {k : κ} {v : α}
    (h : (k, v) ∈ m) : get? m k = some v := by
  induction m with
  | nil => simp at h
  | cons e rest ih =>
      obtain ⟨i, w⟩ := e
      have hcons : i ∉ keys rest ∧ (keys rest).Nodup := by simpa [keys] using hd
      rw [get?_cons]
      rcases List.mem_cons.mp h with heq | h
      · cases heq
        rw [if_pos rfl]
      · have hk : k ∈ keys rest := List.mem_map.mpr ⟨(k, v), h, rfl⟩
        rw [if_neg (by rintro rfl; exact hcons.1 hk)]
        exact ih hcons.2 h

/-- A list of entries of the map that has every key once is the map in another order. -/
theorem perm_of_keys {m n : BTreeMap κ α} (hm : (keys m).Nodup) (hn : (keys n).Nodup)
    (hkeys : ∀ k ∈ keys m, k ∈ keys n) (h : ∀ e ∈ n, get? m e.1 = some e.2) : n.Perm m := by
  have hnodup : ∀ {l : BTreeMap κ α}, (keys l).Nodup → l.Nodup := fun hl =>
    List.Pairwise.of_map Prod.fst (fun _ _ hne heq => hne (congrArg Prod.fst heq)) hl
  rw [List.perm_ext_iff_of_nodup (hnodup hn) (hnodup hm)]
  refine fun e => ⟨fun he => mem_of_get? (h e he), fun he => ?_⟩
  obtain ⟨e', he', heq⟩ := List.mem_map.mp (hkeys e.1 (List.mem_map_of_mem he))
  have hval : some e'.2 = some e.2 := by
    rw [← h e' he', heq]
    exact get?_of_mem hm he
  rwa [← Prod.ext heq (Option.some.inj hval)]

/-! ### Insertion -/

section Insert

variable [Ord κ]

theorem mem_place {m : BTreeMap κ α} {k : κ} {v : α} {e : κ × α} :
    e ∈ place m k v ↔ e = (k, v) ∨ e ∈ m := by
  induction m with
  | nil => simp [place]
  | cons d rest ih =>
      simp only [place]
      split
      · simp
      · simp only [List.mem_cons, ih]
        tauto

omit [DecidableEq κ] in
theorem place_perm (m : BTreeMap κ α) (k : κ) (v : α) : (place m k v).Perm ((k, v) :: m) := by
  induction m with
  | nil => exact List.Perm.refl _
  | cons d rest ih =>
      rw [place]
      split
      · exact List.Perm.refl _
      · exact (ih.cons d).trans (List.Perm.swap _ _ _)

theorem get?_place {m : BTreeMap κ α} {k : κ} (hk : k ∉ keys m) (v : α) (j : κ) :
    get? (place m k v) j = if k = j then some v else get? m j := by
  induction m with
  | nil => rfl
  | cons e rest ih =>
      obtain ⟨i, w⟩ := e
      have hne : k ≠ i ∧ k ∉ keys rest := by simpa [keys] using hk
      simp only [place]
      split
      · simp only [get?_cons]
      · simp only [get?_cons, ih hne.2]
        by_cases hij : i = j
        · subst hij
          simp [hne.1]
        · simp [hij]

theorem nodup_keys_place {m : BTreeMap κ α} (h : (keys m).Nodup) {k : κ}
    (hk : k ∉ keys m) (v : α) : (keys (place m k v)).Nodup := by
  induction m with
  | nil => simp [place, keys]
  | cons e rest ih =>
      obtain ⟨i, w⟩ := e
      have hne : k ≠ i ∧ k ∉ keys rest := by simpa [keys] using hk
      have hcons : i ∉ keys rest ∧ (keys rest).Nodup := by simpa [keys] using h
      simp only [place]
      split
      · exact List.nodup_cons.mpr ⟨hk, h⟩
      · refine List.nodup_cons.mpr ⟨?_, ih hcons.2 hne.2⟩
        intro hmem
        obtain ⟨e, he, rfl⟩ := List.mem_map.mp hmem
        rcases mem_place.mp he with rfl | he
        · exact hne.1 rfl
        · exact hcons.1 (List.mem_map.mpr ⟨e, he, rfl⟩)

theorem mem_insert {m : BTreeMap κ α} {k : κ} {v : α} {e : κ × α} :
    e ∈ insert m k v ↔ e = (k, v) ∨ (e ∈ m ∧ e.1 ≠ k) := by
  rw [insert, mem_place, mem_erase]

theorem insert_perm (m : BTreeMap κ α) (k : κ) (v : α) :
    (insert m k v).Perm ((k, v) :: erase m k) :=
  place_perm (erase m k) k v

theorem get?_insert (m : BTreeMap κ α) (k : κ) (v : α) (j : κ) :
    get? (insert m k v) j = if k = j then some v else get? m j := by
  rw [insert, get?_place (not_mem_keys_erase m k), get?_erase]
  split <;> rfl

@[simp] theorem get?_insert_self (m : BTreeMap κ α) (k : κ) (v : α) :
    get? (insert m k v) k = some v := by
  rw [get?_insert, if_pos rfl]

theorem get?_insert_ne {m : BTreeMap κ α} {k j : κ} (h : k ≠ j) (v : α) :
    get? (insert m k v) j = get? m j := by
  rw [get?_insert, if_neg h]

theorem mem_keys_insert {m : BTreeMap κ α} {k j : κ} {v : α} :
    j ∈ keys (insert m k v) ↔ j = k ∨ j ∈ keys m := by
  rw [← get?_isSome_iff, ← get?_isSome_iff, get?_insert]
  by_cases h : k = j
  · simp [h]
  · simp [h, Ne.symm h]

theorem mem_values_insert {m : BTreeMap κ α} {k : κ} {v w : α}
    (h : w ∈ values (insert m k v)) : w = v ∨ w ∈ values m := by
  obtain ⟨e, he, rfl⟩ := List.mem_map.mp h
  rcases mem_insert.mp he with rfl | ⟨he, -⟩
  · exact Or.inl rfl
  · exact Or.inr (List.mem_map.mpr ⟨e, he, rfl⟩)

/-- Inserting keeps the keys distinct. -/
theorem nodup_keys_insert {m : BTreeMap κ α} (h : (keys m).Nodup) (k : κ) (v : α) :
    (keys (insert m k v)).Nodup :=
  nodup_keys_place (nodup_keys_erase h k) (not_mem_keys_erase m k) v

end Insert

/-! ### Going through all entries -/

/-- What is made of the entry of a key, where everything is marked with the key it is made from. -/
theorem filter_flatMap {β : Type} {m : BTreeMap κ α} (hm : (keys m).Nodup)
    (f : κ × α → List (κ × β)) (hf : ∀ e, ∀ p ∈ f e, p.1 = e.1) (k : κ) :
    (m.flatMap f).filter (fun p => p.1 = k) = ((get? m k).map fun v => f (k, v)).getD [] := by
  induction m with
  | nil => rfl
  | cons e rest ih =>
    obtain ⟨j, v⟩ := e
    obtain ⟨hj, hrest⟩ := List.nodup_cons.mp hm
    rw [List.flatMap_cons, List.filter_append, ih hrest, get?_cons]
    split
    · next heq =>
      subst heq
      have hnone : get? rest j = none := get?_eq_none_iff.mpr hj
      have hall : (f (j, v)).filter (fun p => p.1 = j) = f (j, v) :=
        List.filter_eq_self.mpr fun p hp => decide_eq_true (hf _ p hp)
      rw [hnone, hall]
      exact List.append_nil _
    · next hne =>
      have hnothing : (f (j, v)).filter (fun p => p.1 = k) = [] :=
        List.filter_eq_nil_iff.mpr fun p hp heq => hne ((hf _ p hp).symm.trans (of_decide_eq_true heq))
      rw [hnothing, List.nil_append]

/-! ### The order of the keys -/

section

variable [Ord κ]

/-- The keys ascend. -/
def Ascending (m : BTreeMap κ α) : Prop := m.Pairwise fun d e => compare d.1 e.1 = .lt

omit [DecidableEq κ] in
theorem Ascending.nodup_keys [Std.LawfulEqOrd κ] {m : BTreeMap κ α} (h : Ascending m) :
    (keys m).Nodup := by
  refine List.pairwise_map.mpr (h.imp fun {d e} hlt heq => ?_)
  have hself : compare e.1 e.1 = .eq := Std.ReflCmp.compare_self
  rw [heq, hself] at hlt
  cases hlt

theorem Ascending.erase {m : BTreeMap κ α} (h : Ascending m) (k : κ) : Ascending (erase m k) :=
  List.Pairwise.filter _ h

theorem Ascending.place [Std.TransOrd κ] [Std.LawfulEqOrd κ] {m : BTreeMap κ α} (h : Ascending m)
    {k : κ} (hk : k ∉ keys m) (v : α) : Ascending (place m k v) := by
  induction m with
  | nil => exact List.pairwise_singleton _ _
  | cons e rest ih =>
    obtain ⟨j, w⟩ := e
    obtain ⟨hj, hrest⟩ := List.pairwise_cons.mp h
    rw [BTreeMap.place]
    split
    · next hlt =>
      refine List.pairwise_cons.mpr ⟨fun e he => ?_, h⟩
      rcases List.mem_cons.mp he with rfl | he
      · exact hlt
      · exact Std.TransCmp.lt_trans hlt (hj e he)
    · next hnot =>
      have hne : j ≠ k := fun heq => hk (by rw [heq]; exact List.mem_cons_self)
      have hjk : compare j k = .lt := by
        cases hcmp : compare j k with
        | lt => rfl
        | eq => exact absurd (Std.LawfulEqCmp.eq_of_compare hcmp) hne
        | gt => exact absurd (Std.OrientedCmp.lt_of_gt hcmp) hnot
      refine List.pairwise_cons.mpr ⟨fun e he => ?_, ih hrest fun hmem => hk (.tail _ hmem)⟩
      rcases mem_place.mp he with rfl | he
      · exact hjk
      · exact hj e he

theorem Ascending.insert [Std.TransOrd κ] [Std.LawfulEqOrd κ] {m : BTreeMap κ α} (h : Ascending m)
    (k : κ) (v : α) : Ascending (insert m k v) :=
  (h.erase k).place (not_mem_keys_erase m k) v

omit [DecidableEq κ] in
/-- A key behind all others is put at the end. -/
theorem place_last [Std.OrientedOrd κ] {m : BTreeMap κ α} {k : κ} (v : α)
    (hk : ∀ e ∈ m, compare e.1 k = .lt) : place m k v = m ++ [(k, v)] := by
  induction m with
  | nil => rfl
  | cons e rest ih =>
    obtain ⟨j, w⟩ := e
    have hj : compare j k = .lt := hk (j, w) List.mem_cons_self
    have hnot : compare k j ≠ .lt := by
      intro h
      exact absurd (Std.OrientedCmp.gt_of_lt hj) (by rw [h]; decide)
    rw [place, if_neg hnot, ih fun e he => hk e (List.mem_cons_of_mem _ he), List.cons_append]

/-- A map is built from its entries in order. -/
theorem extend_ascending [Std.TransOrd κ] [Std.LawfulEqOrd κ] {es : List (κ × α)}
    (hes : Ascending es) : extend ([] : BTreeMap κ α) es = es := by
  have hfold : ∀ (es m : List (κ × α)), Ascending (m ++ es) →
      extend (m : BTreeMap κ α) es = m ++ es := by
    intro es
    induction es with
    | nil => exact fun m _ => (List.append_nil m).symm
    | cons e rest ih =>
      intro m hm
      obtain ⟨k, v⟩ := e
      have hlt : ∀ d ∈ m, compare d.1 k = .lt := fun d hd =>
        (List.pairwise_append.mp hm).2.2 d hd (k, v) List.mem_cons_self
      have hnew : k ∉ keys m := by
        intro hmem
        obtain ⟨d, hd, rfl⟩ := List.mem_map.mp hmem
        have hself : compare d.1 d.1 = .eq := Std.ReflCmp.compare_self
        rw [hlt d hd] at hself
        cases hself
      have hinsert : insert m k v = m ++ [(k, v)] := by
        rw [insert, erase_of_not_mem hnew, place_last v hlt]
      show extend (insert m k v) rest = m ++ (k, v) :: rest
      rw [hinsert, ih _ (by rwa [List.append_assoc]), List.append_assoc]
      rfl
  exact hfold es [] hes

theorem Ascending.extend [Std.TransOrd κ] [Std.LawfulEqOrd κ] {m : BTreeMap κ α}
    (h : Ascending m) (es : List (κ × α)) : Ascending (extend m es) := by
  induction es generalizing m with
  | nil => exact h
  | cons e rest ih => exact ih (h.insert e.1 e.2)

/-- The last entry of a key is the one that stays. -/
theorem get?_extend (m : BTreeMap κ α) (es : List (κ × α)) (k : κ) :
    get? (extend m es) k = (get? es.reverse k).or (get? m k) := by
  have happend : ∀ (a : List (κ × α)) (e : κ × α),
      get? (a ++ [e]) k = (get? a k).or (if e.1 = k then some e.2 else none) := by
    intro a e
    induction a with
    | nil => rfl
    | cons d a ih =>
      rw [List.cons_append, get?_cons, get?_cons, ih]
      split <;> rfl
  induction es generalizing m with
  | nil => rfl
  | cons e rest ih =>
    rw [extend_cons, ih, get?_insert, List.reverse_cons, happend]
    cases get? rest.reverse k with
    | some v => rfl
    | none =>
      rw [Option.none_or, Option.none_or]
      split <;> rfl

/-- A map is determined by its lookups. -/
theorem Ascending.ext [Std.TransOrd κ] [Std.LawfulEqOrd κ] {m n : BTreeMap κ α} (hm : Ascending m)
    (hn : Ascending n) (h : ∀ k, get? m k = get? n k) : m = n := by
  have hperm : n.Perm m := by
    refine perm_of_keys hm.nodup_keys hn.nodup_keys (fun k hk => ?_) fun e he => ?_
    · rw [← get?_isSome_iff, ← h k, get?_isSome_iff]
      exact hk
    · rw [h e.1, get?_of_mem hn.nodup_keys he]
  refine hperm.symm.eq_of_pairwise (fun a b _ _ hab hba => ?_) hm hn
  exact absurd (Std.OrientedCmp.gt_of_lt hab) (by rw [hba]; decide)

/-- To insert what is there changes nothing. -/
theorem Ascending.insert_self [Std.TransOrd κ] [Std.LawfulEqOrd κ] {m : BTreeMap κ α}
    (h : Ascending m) {k : κ} {v : α} (hk : get? m k = some v) : BTreeMap.insert m k v = m := by
  induction m with
  | nil => cases hk
  | cons e rest ih =>
    obtain ⟨j, w⟩ := e
    obtain ⟨hj, hrest⟩ := List.pairwise_cons.mp h
    rw [get?_cons] at hk
    by_cases same : j = k
    · subst same
      rw [if_pos rfl] at hk
      cases hk
      have gone : BTreeMap.erase ((j, v) :: rest) j = rest := by
        have away : ∀ e ∈ rest, e.1 ≠ j := by
          intro e he heq
          have hself : compare j j = .eq := Std.ReflCmp.compare_self
          have hlt : compare j e.1 = .lt := hj e he
          rw [heq, hself] at hlt
          cases hlt
        simpa [BTreeMap.erase] using away
      rw [BTreeMap.insert, gone]
      cases rest with
      | nil => rfl
      | cons d rest => exact if_pos (hj d List.mem_cons_self)
    · rw [if_neg same] at hk
      have before : compare j k = .lt := hj (k, v) (mem_of_get? hk)
      have after : compare k j ≠ .lt := by
        intro hlt
        rw [Std.OrientedCmp.gt_of_lt before] at hlt
        cases hlt
      have kept : BTreeMap.erase ((j, w) :: rest) k = (j, w) :: BTreeMap.erase rest k := by
        simp [BTreeMap.erase, same]
      rw [BTreeMap.insert, kept, BTreeMap.place, if_neg after]
      have rest_same := ih hrest hk
      rw [BTreeMap.insert] at rest_same
      rw [rest_same]

end

end BTreeMap

end Deka.Lib
