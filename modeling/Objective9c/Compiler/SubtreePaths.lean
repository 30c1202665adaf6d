import Objective9c.Lib.Lines
import Objective9c.Lib.PathText

/-! `path_within_subtree`: the path of an import is cleaned in place, and refused if it leaves the directory that
it starts from. -/
namespace Objective9c.SubtreePaths

open List PathText

/-- A path that does not fit `out` is an `overrun`. -/
inductive Result where
  | rejected | overrun
  | rewritten (path : List UInt8)
deriving DecidableEq

/-- The loop over the components, with `parts` and `depth`. It does not come to an empty component at the end,
which it would pass over. -/
def fold (parts : List (List UInt8)) (depth : Nat) : List (List UInt8) → Option (List (List UInt8))
  | [] => some parts
  | c :: rest =>
    if real c = false then fold parts depth rest
    else if c = [dot,dot] then
      if depth = 0 then none else fold parts.dropLast (depth - 1) rest
    else if parts.length < 128 then fold (parts ++ [c]) (depth + 1) rest
    else fold parts depth rest

def pathWithinSubtree (rel : List UInt8) : Result :=
  if rel.head? = some slash then .rejected
  else match fold [] 0 (components rel) with
    | none => .rejected
    | some parts =>
      let out := [slash].intercalate parts
      if out.length < 1024 then .rewritten out else .overrun

def ordinary (component : List UInt8) : Bool := real component && component ≠ [dot,dot]

/-- Behind `depth` ordinary components, some first ones of these have more double dots than ordinary components. -/
def Climbs (depth : Nat) (parts : List (List UInt8)) : Prop :=
  ∃ k, depth + (parts.take k).countP ordinary < (parts.take k).count [dot,dot]

/-- The two paths lead to one place from every directory. -/
def Equivalent (a b : List UInt8) : Prop :=
  ∀ base, (components a).foldl enter base = (components b).foldl enter base

/-- Nothing, or ordinary components with one slash between them. -/
def Normal (path : List UInt8) : Prop := path = [] ∨ ∀ c ∈ components path, ordinary c

variable {parts rest : List (List UInt8)}

theorem climbs_cons : Climbs depth (c :: rest) ↔ ∃ k, depth + (if ordinary c then 1 else 0) +
    (rest.take k).countP ordinary < (rest.take k).count [dot,dot] + if c = [dot,dot] then 1 else 0 := by
  rw [Climbs,← Nat.or_exists_add_one]
  simp [countP_cons,count_cons,Nat.add_comm,Nat.add_left_comm]

theorem climbs_up : Climbs depth ([dot,dot] :: rest) ↔ depth = 0 ∨ Climbs (depth - 1) rest := by
  have up : ordinary [dot,dot] = false := by decide
  simp only [climbs_cons,up,Bool.false_eq_true,if_false,if_true]
  constructor
  · rintro ⟨k,more⟩
    exact or_iff_not_imp_left.mpr fun deep => ⟨k,by omega⟩
  · rintro (rfl | ⟨k,more⟩)
    · exact ⟨0,by simp⟩
    · exact ⟨k,by omega⟩

/-- The loop refuses what climbs, and what it keeps leads to the same place from every directory. -/
theorem fold_spec (parts rest : List (List UInt8)) (room : parts.length + rest.countP ordinary ≤ 128) :
    (fold parts parts.length rest = none ↔ Climbs parts.length rest) ∧ ∀ out,
      fold parts parts.length rest = some out → out <+ parts ++ rest.filter ordinary ∧
        ∀ base, rest.foldl enter (base ++ parts) = base ++ out := by
  induction rest generalizing parts with
  | nil => simp [fold,Climbs]
  | cons c rest ih =>
    rw [countP_cons] at room
    cases isReal : real c with
    | false =>
      have other : c ≠ [dot,dot] := by rintro rfl; cases isReal
      rw [climbs_cons]
      simpa [fold,ordinary,isReal,enter,other,Climbs] using ih parts (by omega)
    | true =>
      by_cases up : c = [dot,dot]
      · subst up
        rw [fold,climbs_up]
        rcases eq_nil_or_concat parts with rfl | ⟨front,last,rfl⟩
        · simp [isReal]
        · rw [concat_eq_append,length_append] at room ⊢
          obtain ⟨climbs,kept⟩ := ih front (by omega)
          refine ⟨by simpa [isReal] using climbs,fun out folded => ?_⟩
          obtain ⟨sub,same⟩ := kept out (by simpa [isReal] using folded)
          refine ⟨sub.trans (by simp [ordinary]),fun base => ?_⟩
          rw [foldl_cons,enter,if_pos isReal,if_pos rfl,← append_assoc,dropLast_concat,same]
      · have down : ordinary c = true := by simp [ordinary,isReal,up]
        rw [if_pos down] at room
        have longer : (parts ++ [c]).length = parts.length + 1 := by simp
        obtain ⟨climbs,kept⟩ := ih (parts ++ [c]) (by omega)
        rw [longer] at climbs kept
        rw [fold,if_neg (by simp [isReal]),if_neg up,if_pos (by omega)]
        rw [climbs_cons,if_pos down,if_neg up]
        refine ⟨climbs,fun out folded => ?_⟩
        obtain ⟨sub,same⟩ := kept out folded
        refine ⟨by simpa [down] using sub,fun base => ?_⟩
        rw [foldl_cons,enter,if_pos isReal,if_neg up,append_assoc,same]

theorem length_intercalate_le (s : α) {part whole : List (List α)} (sub : part <+ whole) :
    ([s].intercalate part).length ≤ ([s].intercalate whole).length := by
  induction sub with
  | slnil => exact Nat.le_refl _
  | @cons part whole c sub ih =>
    cases whole with
    | nil => simp [sublist_nil.mp sub]
    | cons => simp only [intercalate_cons_cons,length_append]; omega
  | @cons_cons part whole c sub ih => cases part <;> cases whole <;> simp_all [intercalate_cons_cons]

theorem foldl_ordinary (plain : ∀ c ∈ parts, ordinary c = true) (base : List (List UInt8)) :
    parts.foldl enter base = base ++ parts := by
  have both : ∀ c ∈ parts, real c = true ∧ c ≠ [dot,dot] := fun c member => by
    simpa [ordinary] using plain c member
  rw [foldl_enter fun c member => (both c member).2,filter_eq_self.mpr fun c member => (both c member).1]

theorem Normal.joined (normal : Normal path) : [slash].intercalate ((components path).foldl enter []) = path := by
  rcases normal with rfl | plain
  · rfl
  · rw [foldl_ordinary plain]
    exact intercalate_splitOn slash

/-- A path is refused just if it is absolute or climbs, and is otherwise rewritten to its one normal form. Only
ordinary components count towards the 128. -/
theorem subtree_path_exact (short : rel.length < 1024) (few : (components rel).countP ordinary ≤ 128) :
    (pathWithinSubtree rel = .rejected ↔ rel.head? = some slash ∨ Climbs 0 (components rel)) ∧
      (pathWithinSubtree rel ≠ .rejected → ∃ out, pathWithinSubtree rel = .rewritten out ∧ Normal out ∧
        Equivalent out rel ∧ ∀ other, Normal other → Equivalent other rel → other = out) := by
  obtain ⟨climbs,kept⟩ := fold_spec [] (components rel) (by simpa using few)
  simp only [length_nil,nil_append,append_nil] at climbs kept
  by_cases absolute : rel.head? = some slash
  · simp [pathWithinSubtree,absolute]
  rw [pathWithinSubtree,if_neg absolute,← climbs]
  cases folded : fold [] 0 (components rel) with
  | none => simp [absolute]
  | some parts =>
    obtain ⟨sub,same⟩ := kept parts folded
    have inside : parts <+ components rel := sub.trans filter_sublist
    have fits : ([slash].intercalate parts).length < 1024 := by
      have shorter := length_intercalate_le slash inside
      rw [components,intercalate_splitOn] at shorter
      omega
    have plain : ∀ c ∈ parts, ordinary c = true := fun c member => (mem_filter.mp (sub.subset member)).2
    -- no component has a slash in it, so that the text is cut at the slashes put between them
    have split : parts = [] ∨ components ([slash].intercalate parts) = parts := or_iff_not_imp_left.mpr
      (splitOn_intercalate slash fun c member => (Lines.not_mem_of_mem_splitOn (inside.subset member)).1)
    have normal : Normal ([slash].intercalate parts) := by
      rcases split with rfl | split
      · exact .inl rfl
      · exact .inr (by rwa [split])
    have leads (base : List (List UInt8)) :
        (components ([slash].intercalate parts)).foldl enter base = base ++ parts := by
      rcases split with rfl | split
      · simp [components,enter,real]
      · rw [split,foldl_ordinary plain]
    simp only [fits,if_true]
    refine ⟨by simp [absolute],fun _ => ⟨_,rfl,normal,fun base => (leads base).trans (same base).symm,?_⟩⟩
    intro other normal' equivalent
    rw [← normal'.joined,equivalent [],same []]
    rfl

/-- The path `a//b/../c`. -/
def roundabout : List UInt8 := [97,slash,slash,98,slash,dot,dot,slash,99]

theorem roundabout_exact : ∃ out, pathWithinSubtree roundabout = .rewritten out ∧ Normal out ∧
    Equivalent out roundabout ∧ ∀ other, Normal other → Equivalent other roundabout → other = out :=
  (subtree_path_exact (by decide) (by decide)).2 (by decide)

end Objective9c.SubtreePaths
