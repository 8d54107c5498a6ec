namespace AddingCalculator

def insertEntry {κ α : Type} [LT κ] [DecidableLT κ] [DecidableEq κ] (k : κ) (v : α) :
    List (κ × α) → List (κ × α)
  | [] => [(k, v)]
  | e :: es => if k < e.1 then (k, v) :: e :: es else if k = e.1 then (k, v) :: es else e :: insertEntry k v es

theorem mem_insertEntry {κ α : Type} [LT κ] [DecidableLT κ] [DecidableEq κ] {k : κ} {v : α} {e : κ × α}
    {es : List (κ × α)} (h : e ∈ insertEntry k v es) : e = (k, v) ∨ e ∈ es := by
  induction es with
  | nil => simpa [insertEntry] using h
  | cons d es ih =>
    simp only [insertEntry] at h
    split at h
    · simpa using h
    · split at h
      · rcases List.mem_cons.mp h with h | h
        · exact .inl h
        · exact .inr (List.mem_cons_of_mem d h)
      · rcases List.mem_cons.mp h with h | h
        · exact .inr (by simp [h])
        · exact (ih h).imp id (List.mem_cons_of_mem d)

theorem pairwise_insertEntry {κ α : Type} [LE κ] [LT κ] [DecidableLT κ] [DecidableEq κ] [Std.IsLinearOrder κ]
    [Std.LawfulOrderLT κ] (k : κ) (v : α) {es : List (κ × α)} (h : es.Pairwise fun d e => d.1 < e.1) :
    (insertEntry k v es).Pairwise fun d e => d.1 < e.1 := by
  induction es with
  | nil => simp [insertEntry]
  | cons d es ih =>
    have hd : ∀ e ∈ es, d.1 < e.1 := fun e he => List.rel_of_pairwise_cons h he
    simp only [insertEntry]
    split
    · rename_i hk
      refine h.cons fun e he => ?_
      rcases List.mem_cons.mp he with rfl | he
      · exact hk
      · exact Std.lt_trans hk (hd e he)
    · split
      · rename_i hk
        exact h.of_cons.cons fun e he => hk ▸ hd e he
      · rename_i hlt hne
        refine (ih h.of_cons).cons fun e he => ?_
        rcases mem_insertEntry he with rfl | he
        · exact Std.lt_of_le_of_ne (Std.not_lt.mp hlt) (Ne.symm hne)
        · exact hd e he

@[ext]
structure SortedMap (κ α : Type) [LT κ] where
  entries : List (κ × α)
  sorted : entries.Pairwise fun d e => d.1 < e.1

namespace SortedMap

def empty {κ α : Type} [LT κ] : SortedMap κ α := ⟨[], .nil⟩

def find? {κ α : Type} [LT κ] [DecidableEq κ] (m : SortedMap κ α) (k : κ) : Option α :=
  (m.entries.find? fun e => e.1 = k).map Prod.snd

def contains {κ α : Type} [LT κ] [DecidableEq κ] (m : SortedMap κ α) (k : κ) : Bool :=
  (m.find? k).isSome

def insert {κ α : Type} [LE κ] [LT κ] [DecidableLT κ] [DecidableEq κ] [Std.IsLinearOrder κ] [Std.LawfulOrderLT κ]
    (m : SortedMap κ α) (k : κ) (v : α) : SortedMap κ α :=
  ⟨insertEntry k v m.entries, pairwise_insertEntry k v m.sorted⟩

def size {κ α : Type} [LT κ] (m : SortedMap κ α) : Nat :=
  m.entries.length

theorem find?_empty {κ α : Type} [LT κ] [DecidableEq κ] (k : κ) : (empty : SortedMap κ α).find? k = none := rfl

theorem find?_insertEntry {κ α : Type} [LT κ] [DecidableLT κ] [DecidableEq κ] (k : κ) (v : α) (es : List (κ × α))
    (x : κ) : ((insertEntry k v es).find? fun e => e.1 = x).map Prod.snd =
      if k = x then some v else (es.find? fun e => e.1 = x).map Prod.snd := by
  induction es with
  | nil => by_cases h : k = x <;> simp [insertEntry, h]
  | cons e es ih =>
    simp only [insertEntry]
    split
    · by_cases h : k = x <;> simp [List.find?_cons, h]
    · split
      · rename_i he
        by_cases h : k = x <;> simp [← he, h]
      · rename_i he
        by_cases hx : e.1 = x
        · have hk : k ≠ x := fun hk => he (hk.trans hx.symm)
          simp [hx, hk]
        · simpa [List.find?_cons, hx] using ih

theorem find?_insert {κ α : Type} [LE κ] [LT κ] [DecidableLT κ] [DecidableEq κ] [Std.IsLinearOrder κ]
    [Std.LawfulOrderLT κ] (m : SortedMap κ α) (k : κ) (v : α) (x : κ) :
    (m.insert k v).find? x = if k = x then some v else m.find? x :=
  find?_insertEntry k v m.entries x

end SortedMap

end AddingCalculator
