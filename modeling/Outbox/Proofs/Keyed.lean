import Mathlib.Data.List.Sort
import Outbox.Keyed

/-!
Collections as finite maps: what they hold is what look-ups find, and two collections in which every
look-up agrees are the same (`ext_find?`).
-/

namespace Outbox.Keyed

variable {α κ : Type} [Ord κ] {key : α → κ}

theorem mem_of_find? {s : Keyed key} {k : κ} {a : α} (h : s.find? k = some a) : a ∈ s.toList :=
  List.mem_of_find?_eq_some h

@[simp]
theorem find?_empty (k : κ) : (∅ : Keyed key).find? k = none := rfl

variable [Std.LawfulEqOrd κ]

theorem nodup_keys (s : Keyed key) : (s.toList.map key).Nodup := by
  refine List.pairwise_map.mpr (s.ascending.imp ?_)
  intro a b below same
  rw [same, Std.ReflOrd.compare_self] at below
  cases below

theorem eq_of_key {s : Keyed key} {a b : α} (ha : a ∈ s.toList) (hb : b ∈ s.toList)
    (same : key a = key b) : a = b :=
  List.inj_on_of_nodup_map (nodup_keys s) ha hb same

theorem find?_eq_some_iff {s : Keyed key} {k : κ} {a : α} :
    s.find? k = some a ↔ a ∈ s.toList ∧ key a = k := by
  constructor
  · intro found
    exact ⟨mem_of_find? found, key_of_find? found⟩
  · rintro ⟨member, rfl⟩
    cases found : s.find? (key a) with
    | none =>
      have missing := List.find?_eq_none.mp found a member
      simp [Std.ReflOrd.compare_self] at missing
    | some b => rw [eq_of_key (mem_of_find? found) member (key_of_find? found)]

theorem find?_of_mem {s : Keyed key} {a : α} (h : a ∈ s.toList) : s.find? (key a) = some a :=
  find?_eq_some_iff.mpr ⟨h, rfl⟩

theorem find?_eq_none_iff {s : Keyed key} {k : κ} : s.find? k = none ↔ ∀ a ∈ s.toList, key a ≠ k := by
  constructor
  · rintro missing a member rfl
    rw [find?_of_mem member] at missing
    cases missing
  · intro other
    cases found : s.find? k with
    | none => rfl
    | some a => exact absurd (key_of_find? found) (other a (mem_of_find? found))

theorem contains_iff {s : Keyed key} {k : κ} : s.contains k ↔ ∃ a ∈ s.toList, key a = k := by
  simp only [contains, Option.isSome_iff_exists, find?_eq_some_iff]

theorem mem_erase {s : Keyed key} {k : κ} {a : α} :
    a ∈ (s.erase k).toList ↔ a ∈ s.toList ∧ key a ≠ k := by
  simp only [erase, filter, List.mem_filter, bne_iff_ne, ne_eq, Std.LawfulEqCmp.compare_eq_iff_eq]

variable [Std.TransOrd κ]

/-- Collections that answer every look-up alike are the same: their order is that of their keys. -/
theorem ext_find? {s t : Keyed key} (h : ∀ k, s.find? k = t.find? k) : s = t := by
  have members : ∀ a, a ∈ s.toList ↔ a ∈ t.toList := by
    intro a
    have left := find?_eq_some_iff (s := s) (k := key a) (a := a)
    have right := find?_eq_some_iff (s := t) (k := key a) (a := a)
    rw [h] at left
    simpa using left.symm.trans right
  have perm : s.toList.Perm t.toList :=
    (List.perm_ext_iff_of_nodup (nodup_keys s).of_map (nodup_keys t).of_map).mpr members
  refine ext (perm.eq_of_pairwise ?_ s.ascending t.ascending)
  intro a b _ _ below above
  rw [Std.OrientedCmp.gt_of_lt below] at above
  cases above

theorem find?_insert_of_ne {s : Keyed key} {a : α} {k : κ} (h : key a ≠ k) :
    (s.insert a).find? k = s.find? k := by
  rw [find?_insert, if_neg (mt Std.LawfulEqOrd.compare_eq_iff_eq.mp h)]

theorem find?_insert_self (s : Keyed key) (a : α) : (s.insert a).find? (key a) = some a := by
  rw [find?_insert, if_pos Std.ReflOrd.compare_self]

theorem find?_foldl_insert_of_ne {s : Keyed key} {l : List α} {k : κ} (h : ∀ a ∈ l, key a ≠ k) :
    (l.foldl insert s).find? k = s.find? k := by
  induction l generalizing s with
  | nil => rfl
  | cons a rest ih =>
    rw [List.foldl_cons, ih fun b hb => h b (List.mem_cons_of_mem _ hb),
      find?_insert_of_ne (h a List.mem_cons_self)]

theorem isSome_find?_foldl_insert {s : Keyed key} {l : List α} {k : κ} (there : (s.find? k).isSome) :
    ((l.foldl insert s).find? k).isSome := by
  induction l generalizing s with
  | nil => exact there
  | cons a rest ih =>
    refine ih ?_
    rw [find?_insert]
    split
    · rfl
    · exact there

theorem find?_foldl_insert_of_mem {s : Keyed key} {l : List α} {a : α} (unique : (l.map key).Nodup)
    (h : a ∈ l) : (l.foldl insert s).find? (key a) = some a := by
  induction l generalizing s with
  | nil => cases h
  | cons b rest ih =>
    obtain ⟨fresh, unique⟩ := List.nodup_cons.mp unique
    rcases List.mem_cons.mp h with rfl | member
    · have other : ∀ c ∈ rest, key c ≠ key a := fun c hc same =>
        fresh (same ▸ List.mem_map_of_mem hc)
      rw [List.foldl_cons, find?_foldl_insert_of_ne other, find?_insert_self]
    · exact ih unique member

theorem insert_perm {s : Keyed key} {a : α} (absent : ∀ b ∈ s.toList, key b ≠ key a) :
    (s.insert a).toList.Perm (a :: s.toList) := by
  have placed : ∀ l : List α, (∀ b ∈ l, key b ≠ key a) → (place key a l).Perm (a :: l) := by
    intro l absent
    induction l with
    | nil => exact .refl _
    | cons b rest ih =>
      unfold place
      split
      · exact .refl _
      · rename_i equal
        exact absurd (Std.LawfulEqCmp.eq_of_compare equal).symm (absent b List.mem_cons_self)
      · exact ((ih fun c hc => absent c (List.mem_cons_of_mem _ hc)).cons b).trans (.swap a b rest)
  exact placed s.toList absent

theorem foldl_insert_perm {s : Keyed key} {l : List α} (unique : (l.map key).Nodup)
    (absent : ∀ a ∈ l, ∀ b ∈ s.toList, key b ≠ key a) :
    (l.foldl insert s).toList.Perm (l ++ s.toList) := by
  induction l generalizing s with
  | nil => exact .refl _
  | cons a rest ih =>
    obtain ⟨fresh, unique⟩ := List.nodup_cons.mp unique
    have added := insert_perm (absent a List.mem_cons_self)
    refine (ih unique fun c hc b hb => ?_).trans ((added.append_left rest).trans List.perm_middle)
    rcases List.mem_cons.mp (added.mem_iff.mp hb) with rfl | old
    · exact fun same => fresh (List.mem_map.mpr ⟨c, hc, same.symm⟩)
    · exact absent c (List.mem_cons_of_mem _ hc) b old

end Outbox.Keyed
