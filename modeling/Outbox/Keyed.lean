/-!
Finite collections in ascending key order with at most one entry per key.
`find?_insert`, `find?_erase`, `find?_filter` and `find?_modify` say what each change does to
look-ups.
-/

namespace Outbox

variable {α κ : Type} [Ord κ]

/-- Entries in ascending order of `key`; no two share a key. -/
structure Keyed (key : α → κ) where
  toList : List α
  ascending : toList.Pairwise fun a b => compare (key a) (key b) = .lt

namespace Keyed

variable {key : α → κ}

theorem ext {s t : Keyed key} (h : s.toList = t.toList) : s = t := by
  cases s; cases t; cases h; rfl

instance [DecidableEq α] : DecidableEq (Keyed key) := fun s t =>
  if h : s.toList = t.toList then isTrue (ext h) else isFalse fun e => h (congrArg toList e)

def empty : Keyed key := ⟨[], .nil⟩

instance : EmptyCollection (Keyed key) := ⟨empty⟩

def size (s : Keyed key) : Nat := s.toList.length

def find? (s : Keyed key) (k : κ) : Option α := s.toList.find? fun a => compare (key a) k == .eq

def contains (s : Keyed key) (k : κ) : Bool := (s.find? k).isSome

def filter (s : Keyed key) (p : α → Bool) : Keyed key := ⟨s.toList.filter p, s.ascending.filter p⟩

def erase (s : Keyed key) (k : κ) : Keyed key := s.filter fun a => compare (key a) k != .eq

/-- Places `a` before the first greater key; an entry of the same key gives way. -/
def place (key : α → κ) (a : α) : List α → List α
  | [] => [a]
  | b :: rest =>
    match compare (key a) (key b) with
    | .lt => a :: b :: rest
    | .eq => a :: rest
    | .gt => b :: place key a rest

theorem mem_place {a x : α} {l : List α} (h : x ∈ place key a l) : x = a ∨ x ∈ l := by
  induction l with
  | nil => simpa [place] using h
  | cons b rest ih =>
    unfold place at h
    split at h <;> simp only [List.mem_cons] at h ⊢
    · exact h
    · exact h.imp_right .inr
    · rcases h with h | h
      · exact .inr (.inl h)
      · exact (ih h).imp_right .inr

variable [Std.LawfulEqOrd κ]

theorem find?_place [Std.OrientedOrd κ] (a : α) (k : κ) (l : List α) :
    (place key a l).find? (fun b => compare (key b) k == .eq) =
      if compare (key a) k = .eq then some a else l.find? fun b => compare (key b) k == .eq := by
  induction l with
  | nil => by_cases same : compare (key a) k = .eq <;> simp [place, same]
  | cons b rest ih =>
    have found : ∀ c, (compare (key c) k == .eq) = true → key c = k := fun c h =>
      Std.LawfulEqCmp.eq_of_compare (eq_of_beq h)
    unfold place
    split
    · by_cases same : compare (key a) k = .eq <;> simp [same]
    · rename_i equal
      have e : key a = key b := Std.LawfulEqCmp.eq_of_compare equal
      by_cases same : compare (key b) k = .eq <;> simp [e, same]
    · rename_i above
      rw [List.find?_cons, List.find?_cons, ih]
      split
      · rename_i hit
        simp [← found b hit, above]
      · rfl

theorem ne_of_ascending {b x : α} {rest : List α} {k : κ}
    (first : ∀ x ∈ rest, compare (key b) (key x) = .lt) (hit : compare (key b) k = .eq)
    (h : x ∈ rest) : compare (key x) k ≠ .eq := by
  intro same
  rw [Std.LawfulEqCmp.eq_of_compare hit, ← Std.LawfulEqCmp.eq_of_compare same] at first
  have below := first x h
  rw [Std.ReflOrd.compare_self] at below
  cases below

theorem find?_filter (s : Keyed key) (p : α → Bool) (k : κ) :
    (s.filter p).find? k = (s.find? k).filter p := by
  obtain ⟨l, ascending⟩ := s
  show (l.filter p).find? _ = (l.find? _).filter p
  induction l with
  | nil => rfl
  | cons b rest ih =>
    obtain ⟨first, tail⟩ := List.pairwise_cons.mp ascending
    have ih := ih tail
    by_cases hit : compare (key b) k = .eq
    · have gone : (rest.filter p).find? (fun a => compare (key a) k == .eq) = none := by
        refine List.find?_eq_none.mpr fun x hx => ?_
        simpa using ne_of_ascending first hit (List.mem_filter.mp hx).1
      by_cases keep : p b
      · simp [hit, keep, Option.filter]
      · rw [List.filter_cons_of_neg keep, gone]
        simp [hit, keep, Option.filter]
    · by_cases keep : p b <;> simp [hit, keep, ih]

theorem key_of_find? {s : Keyed key} {k : κ} {a : α} (h : s.find? k = some a) : key a = k :=
  have hit := List.find?_some (p := fun a => compare (key a) k == .eq) h
  Std.LawfulEqCmp.eq_of_compare (eq_of_beq hit)

theorem find?_erase (s : Keyed key) (j k : κ) :
    (s.erase j).find? k = if compare j k = .eq then none else s.find? k := by
  rw [erase, find?_filter]
  cases found : s.find? k with
  | none => simp
  | some a =>
    have same := key_of_find? found
    by_cases h : compare j k = .eq
    · have := Std.LawfulEqCmp.eq_of_compare h
      subst this
      simp [same, Option.filter]
    · have : compare (key a) j ≠ .eq := fun e => h (by
        rw [← same, ← Std.LawfulEqCmp.eq_of_compare e, Std.ReflOrd.compare_self])
      simp [this, h, Option.filter]

variable [Std.TransOrd κ]

theorem place_ascending (a : α) {l : List α}
    (h : l.Pairwise fun a b => compare (key a) (key b) = .lt) :
    (place key a l).Pairwise fun a b => compare (key a) (key b) = .lt := by
  induction l with
  | nil => simp [place]
  | cons b rest ih =>
    obtain ⟨first, tail⟩ := List.pairwise_cons.mp h
    unfold place
    split
    · rename_i below
      refine List.pairwise_cons.mpr ⟨fun x hx => ?_, h⟩
      rcases List.mem_cons.mp hx with rfl | hx
      · exact below
      · exact Std.TransCmp.lt_trans below (first x hx)
    · rename_i same
      refine List.pairwise_cons.mpr ⟨fun x hx => ?_, tail⟩
      rw [Std.LawfulEqCmp.eq_of_compare same]
      exact first x hx
    · rename_i above
      refine List.pairwise_cons.mpr ⟨fun x hx => ?_, ih tail⟩
      rcases mem_place hx with rfl | hx
      · exact Std.OrientedCmp.lt_of_gt above
      · exact first x hx

/-- Adds `a`, replacing the entry of the same key. -/
def insert (s : Keyed key) (a : α) : Keyed key := ⟨place key a s.toList, place_ascending a s.ascending⟩

theorem find?_insert (s : Keyed key) (a : α) (k : κ) :
    (s.insert a).find? k = if compare (key a) k = .eq then some a else s.find? k :=
  find?_place a k s.toList

def ofList (l : List α) : Keyed key := l.foldl insert ∅

/-- Replaces the entry under `k` by `f` of it, where `f` keeps the key. -/
def modify (s : Keyed key) (k : κ) (f : α → α) : Keyed key :=
  match s.find? k with
  | some a => s.insert (f a)
  | none => s

theorem find?_modify (s : Keyed key) (j k : κ) (f : α → α) (keeps : ∀ a, key (f a) = key a) :
    (s.modify j f).find? k = if compare j k = .eq then (s.find? k).map f else s.find? k := by
  unfold modify
  split
  · rename_i a found
    rw [find?_insert, keeps, key_of_find? found]
    split
    · rename_i h
      rw [← Std.LawfulEqCmp.eq_of_compare h, found]; rfl
    · rfl
  · rename_i gone
    split
    · rename_i h
      rw [← Std.LawfulEqCmp.eq_of_compare h, gone]; rfl
    · rfl

end Keyed

end Outbox
