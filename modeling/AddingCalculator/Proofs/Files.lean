import AddingCalculator.CommandLine.Directory
import AddingCalculator.Proofs.Computation

namespace AddingCalculator.CommandLine

namespace FileSystem

variable {σ : Type} [FileSystem σ]

structure Written (s : σ) (path text : String) (after : σ) : Prop where
  held : read after path = .ok text.toUTF8
  kept : ∀ other, ¬ SameFile s path other → ∀ bytes, read after other = .ok bytes ↔ read s other = .ok bytes

/-- A write to the path is completed, or it fails before it changes anything. -/
structure WritesWhole (s : σ) (path : String) : Prop where
  completed : ∀ text after, write s path text = (.ok (), after) → Written s path text after
  unopened : ∀ text e after, write s path text = (.error e, after) → after = s

end FileSystem

theorem toOption_bind {ε α β : Type} (x : Except ε α) (f : α → Except ε β) :
    (x >>= f).toOption = x.toOption.bind fun a => (f a).toOption := by
  cases x <;> rfl

theorem toOption_eq_some {ε α : Type} {x : Except ε α} {a : α} : x.toOption = some a ↔ x = .ok a := by
  cases x <;> simp [Except.toOption]

namespace Directory

variable {d : Directory}

def Location.Named (l : Location) (name : String) : Prop :=
  l = .file name ∨ l = .vacant name

def Names (d : Directory) (path name : String) : Prop :=
  d.locate path = .ok (d.child .working name)

theorem child_working (d : Directory) (name : String) :
    d.child .working name = if d.files.contains name then .file name else .vacant name := rfl

theorem named_child (d : Directory) (name : String) : (d.child .working name).Named name := by
  rw [child_working]
  split_ifs
  · exact .inl rfl
  · exact .inr rfl

theorem not_named_directory {place : Place} {name : String} : ¬ (Location.directory place).Named name := by
  rintro (h | h) <;> cases h

theorem child_eq_named {place : Place} {part name : String} {l : Location} (h : d.child place part = l)
    (hl : l.Named name) : l = d.child .working name := by
  unfold child at h
  split at h
  · split_ifs at h with hcontains <;> subst h <;> rcases hl with h | h <;> cases h
    · rw [child_working, if_pos hcontains]
    · rw [child_working, if_neg hcontains]
  all_goals
    subst h
    rcases hl with h | h <;> cases h

theorem enter_eq_named {location l : Location} {part name : String} (h : d.enter location part = .ok l) (hl : l.Named name) :
    part ≠ "" ∧ part ≠ "." ∧ l = d.child .working name := by
  unfold enter at h
  cases location with
  | file | nullDevice | vacant | elsewhere => cases h
  | directory place =>
    dsimp only at h
    split_ifs at h with hstay
    · cases h
      exact absurd hl not_named_directory
    · cases h
      exact absurd hl not_named_directory
    · obtain ⟨hempty, hdot⟩ := not_or.mp hstay
      exact ⟨hempty, hdot, child_eq_named (Except.ok.inj h) hl⟩

theorem follow_eq_ok {path : String} {parts : List String} {l : Location} (h : d.follow path parts = .ok l) :
    ∃ place, parts.foldlM d.enter (.directory place) = .ok l := by
  unfold follow at h
  split_ifs at h
  · exact ⟨.root, h⟩
  · exact ⟨.working, h⟩

theorem follow_eq_named {path part name : String} {parts : List String} {l : Location}
    (h : d.follow path (parts ++ [part]) = .ok l) (hl : l.Named name) :
    part ≠ "" ∧ part ≠ "." ∧ l = d.child .working name := by
  obtain ⟨place, hfold⟩ := follow_eq_ok h
  obtain ⟨location, -, henter⟩ := foldlM_concat_eq_ok.mp hfold
  exact enter_eq_named henter hl

theorem parts_eq_concat (path : String) : ∃ front last, parts path = front ++ [last] := by
  have hne : parts path ≠ [] := by
    unfold parts
    simp [List.splitOnP_ne_nil]
  obtain ⟨front, last, h⟩ := (List.eq_nil_or_concat' (parts path)).resolve_left hne
  exact ⟨front, last, h⟩

theorem names_of_locate {path name : String} {l : Location} (h : d.locate path = .ok l) (hl : l.Named name) :
    d.Names path name := by
  obtain ⟨front, last, hparts⟩ := parts_eq_concat path
  have hfollow := h
  rw [locate, hparts] at hfollow
  rw [Names, h, (follow_eq_named hfollow hl).2.2]

theorem trimmed_concat {front : List String} {last : String} (h : last ≠ "") :
    trimmed (front ++ [last]) = (front ++ [last], false) := by
  simp [trimmed, h]

theorem Names.destination_eq {path name : String} (h : d.Names path name) :
    d.destination path = .ok (d.child .working name) := by
  obtain ⟨front, last, hparts⟩ := parts_eq_concat path
  have hlocate := h
  rw [Names, locate, hparts] at hlocate
  have hlast := (follow_eq_named hlocate (named_child d name)).1
  rw [destination, hparts, trimmed_concat hlast]
  exact h

theorem enter_dot {location l : Location} (h : d.enter location "." = .ok l) : ∃ place, l = .directory place := by
  cases location with
  | directory place =>
    cases h
    exact ⟨place, rfl⟩
  | file | nullDevice | vacant | elsewhere => cases h

theorem locate_of_destination {path : String} {l : Location} (h : d.destination path = .ok l)
    (hl : ∀ place, l ≠ .directory place) : d.locate path = .ok l := by
  unfold destination at h
  split at h
  · exact h
  · obtain ⟨place, hfold⟩ := follow_eq_ok h
    obtain ⟨location, -, henter⟩ := foldlM_concat_eq_ok.mp hfold
    obtain ⟨place, rfl⟩ := enter_dot henter
    exact absurd rfl (hl place)

def inserting (d : Directory) (name : String) (content : ByteArray) : Directory :=
  ⟨d.files.insert name content⟩

theorem Names.write_eq {path name : String} (h : d.Names path name) (text : String) :
    d.write path text = (.ok (), d.inserting name text.toUTF8) := by
  rw [write, h.destination_eq]
  rcases named_child d name with hchild | hchild <;> rw [hchild] <;> rfl

def content? (d : Directory) : Location → Option ByteArray
  | .file name => d.files.find? name
  | .nullDevice => some .empty
  | .directory _ | .vacant _ | .elsewhere => none

theorem toOption_read (d : Directory) (path : String) : (d.read path).toOption = (d.locate path).toOption.bind d.content? := by
  rw [read, toOption_bind]
  congr 1
  funext l
  cases l with
  | file name =>
    dsimp only [content?]
    cases d.files.find? name <;> rfl
  | directory | vacant | nullDevice | elsewhere => rfl

def Location.settled (name : String) : Location → Location
  | .vacant other => if other = name then .file other else .vacant other
  | l => l

section

variable (d) (name : String) (content : ByteArray)

theorem contains_inserting (other : String) :
    (d.inserting name content).files.contains other = (decide (name = other) || d.files.contains other) := by
  unfold SortedMap.contains inserting
  rw [SortedMap.find?_insert]
  by_cases h : name = other <;> simp [h]

theorem child_inserting (place : Place) (part : String) :
    (d.inserting name content).child place part = (d.child place part).settled name := by
  unfold child
  split
  · rw [contains_inserting]
    by_cases hpart : name = part
    · by_cases hcontains : d.files.contains part <;> simp [hpart, hcontains, Location.settled]
    · by_cases hcontains : d.files.contains part <;> simp [hpart, hcontains, Location.settled, Ne.symm hpart]
  all_goals rfl

theorem enter_inserting (location : Location) (part : String) :
    ((d.inserting name content).enter (location.settled name) part).toOption =
      (d.enter location part).toOption.map (Location.settled name) := by
  cases location with
  | file | nullDevice | elsewhere => rfl
  | vacant other =>
    unfold Location.settled
    dsimp only
    split_ifs <;> rfl
  | directory place =>
    simp only [Location.settled, enter]
    split_ifs
    · rfl
    · rfl
    · rfl
    · rw [child_inserting]
      rfl

theorem foldlM_inserting (parts : List String) (location : Location) :
    (parts.foldlM (d.inserting name content).enter (location.settled name)).toOption =
      (parts.foldlM d.enter location).toOption.map (Location.settled name) := by
  induction parts generalizing location with
  | nil => rfl
  | cons part parts ih =>
    rw [List.foldlM_cons, List.foldlM_cons, toOption_bind, toOption_bind, enter_inserting]
    cases (d.enter location part).toOption with
    | none => rfl
    | some next => exact ih next

theorem locate_inserting (path : String) :
    ((d.inserting name content).locate path).toOption = (d.locate path).toOption.map (Location.settled name) := by
  unfold locate follow
  split_ifs
  · rfl
  · rfl
  · exact foldlM_inserting d name content (parts path) (.directory .root)
  · exact foldlM_inserting d name content (parts path) (.directory .working)

theorem content?_inserting {l : Location} (h : ¬ l.Named name) :
    (d.inserting name content).content? (l.settled name) = d.content? l := by
  cases l with
  | directory | nullDevice | elsewhere => rfl
  | vacant other =>
    have hother : other ≠ name := by
      rintro rfl
      exact h (.inr rfl)
    rw [Location.settled, if_neg hother]
    rfl
  | file other =>
    have hother : name ≠ other := by
      rintro rfl
      exact h (.inl rfl)
    simp only [Location.settled, content?, inserting, SortedMap.find?_insert, if_neg hother]

end

theorem Names.written {path name : String} (h : d.Names path name) (text : String) :
    FileSystem.Written d path text (d.inserting name text.toUTF8) := by
  refine ⟨?_, fun other hother => ?_⟩
  · have hsettled : (d.child .working name).settled name = .file name := by
      rcases named_child d name with hchild | hchild <;> simp [hchild, Location.settled]
    rw [← toOption_eq_some]
    change ((d.inserting name text.toUTF8).read path).toOption = some text.toUTF8
    rw [toOption_read, locate_inserting, h]
    simp [Except.toOption, hsettled, content?, inserting, SortedMap.find?_insert]
  · intro bytes
    rw [← toOption_eq_some, ← toOption_eq_some]
    change ((d.inserting name text.toUTF8).read other).toOption = some bytes ↔ (d.read other).toOption = some bytes
    rw [toOption_read, toOption_read, locate_inserting]
    cases hl : d.locate other with
    | error e => rfl
    | ok l =>
      have hcontent : (d.inserting name text.toUTF8).content? (l.settled name) = d.content? l := by
        apply content?_inserting
        intro hnamed
        -- Two paths to one name lead to the same place.
        exact hother (h.trans (names_of_locate hl hnamed).symm)
      exact Eq.congr_left hcontent

theorem writesWhole {path : String} (h : d.locate path ≠ .ok .nullDevice) : FileSystem.WritesWhole d path := by
  constructor
  · intro text after hwrite
    change d.write path text = _ at hwrite
    unfold write at hwrite
    split at hwrite
    · cases hwrite
    · cases hwrite
    · cases hwrite
    · rename_i hdestination
      exact absurd (locate_of_destination hdestination nofun) h
    all_goals
      rename_i name hdestination
      have hnames : d.Names path name :=
        names_of_locate (locate_of_destination hdestination nofun) (by simp [Location.Named])
      cases hwrite
      exact hnames.written text
  · intro text e after hwrite
    change d.write path text = _ at hwrite
    unfold write at hwrite
    split at hwrite <;> cases hwrite <;> rfl

end Directory

end AddingCalculator.CommandLine
