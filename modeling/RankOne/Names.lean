/-!
# Variable names and their indices

A table of names gives each name the position of its first reference. Names are only added at
the end, so an index, once given, stays.
-/

namespace RankOne

structure Names where
  toList : List String
  nodup : toList.Nodup

namespace Names

def empty : Names := ⟨[], List.nodup_nil⟩

def size (t : Names) : Nat := t.toList.length

instance : Membership String Names := ⟨fun t x => x ∈ t.toList⟩

instance (t : Names) (x : String) : Decidable (x ∈ t) :=
  inferInstanceAs (Decidable (x ∈ t.toList))

/-- The index of a name, or the index it would be given next. -/
def position (t : Names) (x : String) : Nat := t.toList.idxOf x

/-- Refers to a name: a new one goes to the end. -/
def insert (t : Names) (x : String) : Names :=
  if h : x ∈ t.toList then t
  else ⟨t.toList ++ [x], by
    rw [List.nodup_append]
    refine ⟨t.nodup, by simp, ?_⟩
    intro a ha b hb hab
    have hbx : b = x := by simpa using hb
    rw [hab, hbx] at ha
    exact h ha⟩

/-- Refers to several names, the first one first. -/
def insertAll (t : Names) (xs : List String) : Names := xs.foldl insert t

theorem mem_def (t : Names) (x : String) : x ∈ t ↔ x ∈ t.toList := Iff.rfl

theorem toList_insert (t : Names) (x : String) :
    (t.insert x).toList = if x ∈ t then t.toList else t.toList ++ [x] := by
  unfold insert
  split <;> rename_i h <;> simp [mem_def, h]

theorem mem_insert (t : Names) (x y : String) : y ∈ t.insert x ↔ y ∈ t ∨ y = x := by
  rw [mem_def, toList_insert]
  split <;> rename_i h
  · constructor
    · exact Or.inl
    · rintro (hy | rfl)
      · exact hy
      · exact h
  · simp [mem_def]

theorem position_lt {t : Names} {x : String} (h : x ∈ t) : t.position x < t.size := by
  rw [mem_def] at h
  exact List.idxOf_lt_length_of_mem h

/-- An index, once given, stays. -/
theorem position_insert (t : Names) (x : String) {y : String} (h : y ∈ t) :
    (t.insert x).position y = t.position y := by
  rw [mem_def] at h
  unfold position
  rw [toList_insert]
  split
  · rfl
  · rw [List.idxOf_append, if_pos h]

theorem mem_insertAll (t : Names) (xs : List String) (y : String) :
    y ∈ t.insertAll xs ↔ y ∈ t ∨ y ∈ xs := by
  induction xs generalizing t with
  | nil => simp [insertAll]
  | cons x xs ih =>
    have hstep : t.insertAll (x :: xs) = (t.insert x).insertAll xs := rfl
    rw [hstep, ih, mem_insert, List.mem_cons, or_assoc]

theorem position_insertAll (t : Names) (xs : List String) {y : String} (h : y ∈ t) :
    (t.insertAll xs).position y = t.position y := by
  induction xs generalizing t with
  | nil => rfl
  | cons x xs ih =>
    have hstep : t.insertAll (x :: xs) = (t.insert x).insertAll xs := rfl
    have hmem : y ∈ t.insert x := (mem_insert t x y).2 (Or.inl h)
    rw [hstep, ih (t.insert x) hmem, position_insert t x h]

end Names

end RankOne
