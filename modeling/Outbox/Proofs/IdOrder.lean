import Mathlib.Data.Char
import Mathlib.Data.List.Induction
import Outbox.ItemId.Text
import Outbox.Proofs.PartitionRanges

/-!
The order of ids. Numbers of one width are in the order of their digits, the greatest place first
(`Radix.map_digits_iff`), so ids sort alike as numbers, as bytes and as text, and they sort by the
millisecond that they carry (`forms_ordered_alike`).
-/

namespace Outbox

namespace Radix

theorem concat_lt_concat_iff {α : Type} [Preorder α] {xs ys : List α} {x y : α} (same : xs.length = ys.length) :
    xs ++ [x] < ys ++ [y] ↔ xs < ys ∨ xs = ys ∧ x < y := by
  induction xs generalizing ys with
  | nil =>
    obtain rfl := List.length_eq_zero_iff.mp same.symm
    simp [List.cons_lt_cons_iff]
  | cons c xs ih =>
    obtain ⟨d, ys, rfl⟩ := List.exists_cons_of_length_eq_add_one same.symm
    have rest := ih (Nat.succ.inj same)
    simp only [List.cons_append, List.cons_lt_cons_iff, List.cons.injEq, rest]
    tauto

theorem lt_iff_div_mod (b m n : Nat) : m < n ↔ m / b < n / b ∨ m / b = n / b ∧ m % b < n % b := by
  have hm := Nat.div_add_mod m b
  have hn := Nat.div_add_mod n b
  rcases Nat.lt_trichotomy (m / b) (n / b) with less | same | above
  · exact iff_of_true (Nat.lt_of_div_lt_div less) (.inl less)
  · rw [same] at hm
    omega
  · have := Nat.lt_of_div_lt_div above
    omega

/-- Signs for the digits of a base, in the order of the digits. -/
def Sorted {α : Type} [Preorder α] (b : Nat) (f : Nat → α) : Prop := ∀ d < b, ∀ e < b, f d < f e ↔ d < e

section

variable {α : Type} [Preorder α] {b : Nat} {f : Nat → α}

theorem Sorted.inj (h : Sorted b f) {d e : Nat} (hd : d < b) (he : e < b) : f d = f e ↔ d = e := by
  refine ⟨fun same => ?_, congrArg f⟩
  rcases Nat.lt_trichotomy d e with less | equal | less
  · exact absurd ((h d hd e he).mpr less) (same ▸ lt_irrefl _)
  · exact equal
  · exact absurd ((h e he d hd).mpr less) (same ▸ lt_irrefl _)

/-- Written with signs in order, numbers of one width are told apart and sorted by their texts. -/
theorem map_digits_iff (h : Sorted b f) (positive : 0 < b) {width m n : Nat} (hm : m < b.pow width)
    (hn : n < b.pow width) :
    ((digits b width m).map f = (digits b width n).map f ↔ m = n) ∧
      ((digits b width m).map f < (digits b width n).map f ↔ m < n) := by
  induction width generalizing m n with
  | zero =>
    have : m = 0 := Nat.lt_one_iff.mp hm
    have : n = 0 := Nat.lt_one_iff.mp hn
    simp [digits, *]
  | succ width ih =>
    have hm' : m / b < b.pow width := Nat.div_lt_of_lt_mul (Nat.mul_comm .. ▸ hm)
    have hn' : n / b < b.pow width := Nat.div_lt_of_lt_mul (Nat.mul_comm .. ▸ hn)
    obtain ⟨equal, less⟩ := ih hm' hn'
    have last := h _ (Nat.mod_lt m positive) _ (Nat.mod_lt n positive)
    have last' := h.inj (Nat.mod_lt m positive) (Nat.mod_lt n positive)
    simp only [digits, List.map_append, List.map_cons, List.map_nil]
    constructor
    · rw [List.append_singleton_inj, equal, last', ← Nat.ext_div_mod_iff]
    · rw [concat_lt_concat_iff (by simp only [List.length_map, length_digits]), less, equal, last,
        lt_iff_div_mod b m n]

end

theorem lt_of_mem_digits {b width n d : Nat} (positive : 0 < b) (member : d ∈ digits b width n) : d < b := by
  induction width generalizing n with
  | zero => cases member
  | succ width ih =>
    rcases List.mem_append.mp member with earlier | last
    · exact ih earlier
    · exact List.mem_singleton.mp last ▸ Nat.mod_lt n positive

theorem value_concat (b : Nat) (ds : List Nat) (d : Nat) : value b (ds ++ [d]) = value b ds * b + d := by
  simp [value]

theorem digits_value {b : Nat} {ds : List Nat} (within : ∀ d ∈ ds, d < b) :
    digits b ds.length (value b ds) = ds := by
  induction ds using List.reverseRecOn with
  | nil => rfl
  | append_singleton ds d ih =>
    have last : d < b := within d List.mem_concat_self
    have rest := ih fun e member => within e (List.mem_append_left _ member)
    have quotient : (value b ds * b + d) / b = value b ds := by
      rw [Nat.mul_comm, Nat.mul_add_div (Nat.zero_lt_of_lt last), Nat.div_eq_of_lt last, Nat.add_zero]
    rw [List.length_append, List.length_singleton, digits, value_concat, quotient, rest,
      Nat.mul_add_mod_of_lt last]

end Radix

namespace Instant

variable {s t : Instant}

def HasId (t : Instant) : Prop := 0 ≤ t.millis ∧ t.millis < 2 ^ 48

instance (t : Instant) : Decidable t.HasId := inferInstanceAs (Decidable (_ ∧ _))

end Instant

namespace ItemId

variable {s t : Instant} {random : Nat}

theorem sorted_symbol : Radix.Sorted 32 symbol := by
  unfold Radix.Sorted
  decide +kernel

theorem lt_pow_bytes (id : ItemId) : id.toNat < Nat.pow 256 16 := Nat.lt_of_lt_of_le id.bounded (by decide)

theorem lt_iff_bytes_lt (a b : ItemId) : a < b ↔ a.bytes < b.bytes := by
  have sorted : Radix.Sorted 256 fun d => d := fun _ _ _ _ => Iff.rfl
  have order := (Radix.map_digits_iff sorted (by decide) a.lt_pow_bytes b.lt_pow_bytes).2
  rw [List.map_id', List.map_id'] at order
  exact order.symm

theorem lt_iff_text_lt (a b : ItemId) : a < b ↔ a.text < b.text := by
  have small (id : ItemId) : id.toNat < Nat.pow 32 26 := Nat.lt_trans id.bounded (by decide)
  have order := (Radix.map_digits_iff sorted_symbol (by decide) (small a) (small b)).2
  rw [String.lt_iff, text, text, String.toList_ofList, String.toList_ofList]
  exact order.symm

theorem toNat_ofNat {n : Nat} (small : n < 1 <<< 128) : (ofNat n).toNat = n := Nat.mod_eq_of_lt small

theorem ofBytes_bytes (id : ItemId) : ofBytes id.bytes = id := by
  apply toNat_inj.mp
  rw [ofBytes, bytes, Radix.value_digits, Nat.mod_eq_of_lt id.lt_pow_bytes, toNat_ofNat id.bounded]

theorem bytes_ofBytes {bs : List Nat} (length : bs.length = 16) (within : ∀ b ∈ bs, b < 256) :
    (ofBytes bs).bytes = bs := by
  have digits : Radix.digits 256 16 (Radix.value 256 bs) = bs := length ▸ Radix.digits_value within
  have small : Radix.value 256 bs < 1 <<< 128 := by
    rw [← digits, Radix.value_digits]
    exact Nat.mod_lt _ (by decide)
  rw [bytes, ofBytes, toNat_ofNat small, digits]

theorem rangeStart_le_mint_iff (hs : s.HasId) (ht : t.HasId) :
    rangeStart s ≤ mint t random ↔ s.millis ≤ t.millis := by
  have minted : ((mint t random).millis : Int) = t.millis := millis_mint ht.1 ht.2
  obtain ⟨since, before⟩ := hs
  have least : rangeStart s ≤ mint t random ↔ s.millis.toNat ≤ (mint t random).millis := ofParts_le_iff (by omega)
  rw [least]
  omega

theorem lt_rangeStart_iff (hs : s.HasId) (id : ItemId) : id < rangeStart s ↔ (id.millis : Int) < s.millis := by
  obtain ⟨since, before⟩ := hs
  have below : id < rangeStart s ↔ id.millis < s.millis.toNat := lt_ofParts_iff (by omega)
  rw [below]
  omega

theorem timestamp_rangeStart (hs : s.HasId) (clock : s.OnClock) :
    (rangeStart s).timestamp.second = s.second ∧
      (rangeStart s).timestamp.nano = s.nano / 1000000 * 1000000 := by
  have minted : ((mint s 0).millis : Int) = s.millis := millis_mint hs.1 hs.2
  have short := Instant.onClock_iff.mp clock
  simp only [timestamp, rangeStart]
  unfold Instant.millis at minted
  omega

/-- Ids sort alike as numbers, as 16 bytes and as 26 digits of text, and bytes and ids are one another's
readings. A range starts with the least id of the millisecond that the clock shows at its start, above all ids
of earlier ones, and nothing minted later is below it. -/
theorem forms_ordered_alike :
    (∀ a b : ItemId, (a < b ↔ a.bytes < b.bytes) ∧ (a < b ↔ a.text < b.text)) ∧
    (∀ id : ItemId, id.bytes.length = 16 ∧ (∀ b ∈ id.bytes, b < 256) ∧ id.text.length = 26 ∧
      ofBytes id.bytes = id) ∧
    (∀ bs : List Nat, bs.length = 16 → (∀ b ∈ bs, b < 256) → (ofBytes bs).bytes = bs) ∧
    ∀ s : Instant, s.HasId → s.OnClock →
      (∀ (t : Instant) (random : Nat), t.HasId → s ≤ t → rangeStart s ≤ mint t random) ∧
      (∀ (t : Instant) (random : Nat), t.HasId → (rangeStart s ≤ mint t random ↔ s.millis ≤ t.millis)) ∧
      (∀ id : ItemId, id < rangeStart s ↔ (id.millis : Int) < s.millis) ∧
      (rangeStart s).timestamp.second = s.second ∧
      (rangeStart s).timestamp.nano = s.nano / 1000000 * 1000000 := by
  refine ⟨fun a b => ⟨lt_iff_bytes_lt a b, lt_iff_text_lt a b⟩, fun id => ?_, fun _ => bytes_ofBytes,
    fun s hs clock => ?_⟩
  · have width : id.text.length = 26 := by
      rw [text, String.length_ofList, chars, List.length_map, Radix.length_digits]
    exact ⟨Radix.length_digits .., fun b => Radix.lt_of_mem_digits (by decide), width, ofBytes_bytes id⟩
  · refine ⟨fun t random ht later => ?_, fun t random => rangeStart_le_mint_iff hs, lt_rangeStart_iff hs,
      timestamp_rangeStart hs clock⟩
    exact (rangeStart_le_mint_iff hs ht).mpr (clock.millis_mono later)

/-- An instant within the last millisecond of the first minute of 1970. -/
def minuteEnd : Instant := ⟨59, 999500000, by decide, by decide⟩

theorem forms_ordered_alike_minute :
    minuteEnd.HasId ∧ minuteEnd.OnClock ∧ (Instant.ofSecond 60).HasId ∧ minuteEnd ≤ .ofSecond 60 ∧
      rangeStart minuteEnd ≤ mint (.ofSecond 60) 7 ∧ (rangeStart minuteEnd).timestamp.second = 59 ∧
      (rangeStart minuteEnd).timestamp.nano = 999000000 ∧
      (List.replicate 16 255).length = 16 ∧ (∀ b ∈ List.replicate 16 255, b < 256) ∧
      (ofBytes (List.replicate 16 255)).bytes = List.replicate 16 255 := by
  obtain ⟨-, -, bytes, instants⟩ := forms_ordered_alike
  have start : minuteEnd.HasId := by decide
  have clock : minuteEnd.OnClock := by decide
  have next : (Instant.ofSecond 60).HasId := by decide
  obtain ⟨above, -, -, second, nano⟩ := instants minuteEnd start clock
  have later : minuteEnd ≤ .ofSecond 60 := by decide
  have given : ∀ b ∈ List.replicate 16 255, b < 256 := by decide
  exact ⟨start, clock, next, later, above _ 7 next later, second, nano, rfl, given, bytes _ rfl given⟩

end ItemId

end Outbox
