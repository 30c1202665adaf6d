import Mathlib.Data.List.Basic

/-! Lexical cleaning of slash-separated paths: empty components and dots are dropped, a double dot drops the
component before it, and above the root there is nothing to drop. -/
namespace PathText

open List

def slash : UInt8 := 47
def dot : UInt8 := 46

def components (text : List UInt8) : List (List UInt8) := text.splitOn slash

def real (component : List UInt8) : Bool := component ≠ [] && component ≠ [dot]

def enter (path : List (List UInt8)) (component : List UInt8) : List (List UInt8) :=
  if real component then
    if component = [dot,dot] then path.dropLast else path ++ [component]
  else path

def clean (text : List UInt8) : List (List UInt8) := (components text).foldl enter []

def Within (root path : List UInt8) : Prop := clean root <+: clean path

instance (root path : List UInt8) : Decidable (Within root path) := inferInstanceAs (Decidable (_ <+: _))

section Components

theorem clean_join (a b : List UInt8) : clean (a ++ slash :: b) = (components b).foldl enter (clean a) := by
  rw [clean,components,splitOn_append_cons_self,foldl_append]
  rfl

theorem components_cut (cut : s <+: t) : ∃ init last more rest,
    components s = init ++ [last] ∧ components t = init ++ (last ++ more) :: rest := by
  obtain ⟨tail,rfl⟩ := cut
  induction s with
  | nil =>
    obtain ⟨first,rest,split⟩ := exists_cons_of_ne_nil (splitOn_ne_nil slash tail)
    exact ⟨[],[],first,rest,rfl,split⟩
  | cons c s ih =>
    obtain ⟨init,last,more,rest,cutParts,parts⟩ := ih
    unfold components at *
    rw [cons_append,splitOn_cons_eq_if_modifyHead,splitOn_cons_eq_if_modifyHead,cutParts,parts]
    by_cases same : c = slash
    · exact ⟨[] :: init,last,more,rest,by simp [same],by simp [same]⟩
    · cases init with
      | nil => exact ⟨[],c :: last,more,rest,by simp [same],by simp [same]⟩
      | cons first init => exact ⟨(c :: first) :: init,last,more,rest,by simp [same],by simp [same]⟩

theorem foldl_enter {parts : List (List UInt8)} (plain : ∀ c ∈ parts, c ≠ [dot,dot]) (path : List (List UInt8)) :
    parts.foldl enter path = path ++ parts.filter real := by
  induction parts generalizing path with
  | nil => simp
  | cons c parts ih =>
    rw [foldl_cons,ih (fun d member => plain d (mem_cons_of_mem c member))]
    have here := plain c mem_cons_self
    cases isReal : real c <;> simp [enter,isReal,here]

end Components

section Cut

variable {root : List UInt8}

theorem length_clean_cut (plain : [dot,dot] ∉ components root) (cut : s <+: root) :
    (clean s).length ≤ (clean root).length := by
  obtain ⟨init,last,more,rest,cutParts,parts⟩ := components_cut cut
  have apart : ∀ c ∈ components root, c ≠ [dot,dot] := fun c member same => plain (same ▸ member)
  have initPlain : ∀ c ∈ init, c ≠ [dot,dot] := by
    intro c member
    exact apart c (parts ▸ mem_append_left _ member)
  have whole : clean root = init.filter real ++ ((last ++ more) :: rest).filter real := by
    rw [clean,foldl_enter apart,parts,filter_append,nil_append]
  have cutClean : clean s = enter (init.filter real) last := by
    rw [clean,cutParts,foldl_append,foldl_enter initPlain]
    rfl
  rw [cutClean,whole,length_append]
  cases isReal : real last with
  | false => simp [enter,isReal]
  | true =>
    have larger : real (last ++ more) = true := by
      simp only [real,Bool.and_eq_true,decide_eq_true_eq,ne_eq] at isReal ⊢
      refine ⟨by simp [isReal.1],fun same => ?_⟩
      obtain ⟨rfl,-⟩ | ⟨rfl,-⟩ := append_eq_singleton_iff.mp same
      · exact isReal.1 rfl
      · exact isReal.2 rfl
    by_cases up : last = [dot,dot]
    · rw [enter,if_pos isReal,if_pos up,length_dropLast]
      omega
    · simp [enter,isReal,up,larger]

theorem within_cut_iff (plain : [dot,dot] ∉ components root) (cut : s <+: root) :
    Within root s ↔ clean s = clean root := by
  constructor
  · intro within
    exact (within.eq_of_length_le (length_clean_cut plain cut)).symm
  · intro same
    unfold Within
    exact same ▸ prefix_rfl

/-- The text steps up from where it starts: a double dot at its end and nothing real before. -/
def climbs (text : List UInt8) : Bool :=
  (components text).getLast? = some [dot,dot] && (components text).dropLast.all fun c => !real c

theorem within_join_iff (plain : [dot,dot] ∉ components target) (cut : s <+: target) :
    Within root (root ++ slash :: s) ↔ clean root = [] ∨ climbs s = false := by
  obtain ⟨init,last,more,rest,cutParts,parts⟩ := components_cut cut
  have initPlain : ∀ c ∈ init, c ≠ [dot,dot] := by
    rintro c member rfl
    exact plain (parts ▸ mem_append_left _ member)
  have joined : clean (root ++ slash :: s) = enter (clean root ++ init.filter real) last := by
    rw [clean_join,cutParts,foldl_append,foldl_enter initPlain]
    rfl
  have climbing : climbs s = true ↔ last = [dot,dot] ∧ init.filter real = [] := by
    simp [climbs,cutParts,filter_eq_nil_iff]
  rw [Within,joined]
  by_cases up : last = [dot,dot]
  · have isReal : real [dot,dot] = true := by decide
    rw [enter,up,if_pos isReal,if_pos rfl]
    cases before : init.filter real with
    | nil =>
      have climb : climbs s = true := climbing.mpr ⟨up,before⟩
      simp only [append_nil,climb,Bool.true_eq_false,or_false]
      constructor
      · intro within
        have short := within.length_le
        rw [length_dropLast] at short
        exact length_eq_zero_iff.mp (by omega)
      · intro empty
        simp [empty]
    | cons =>
      have stays : climbs s = false := by
        rw [Bool.eq_false_iff,ne_eq,climbing,before]
        simp
      simp only [stays,or_true,iff_true]
      rw [dropLast_append_of_ne_nil (by simp)]
      exact prefix_append _ _
  · have stays : climbs s = false := by
      rw [Bool.eq_false_iff,ne_eq,climbing]
      exact fun both => up both.1
    simp only [stays,or_true,iff_true]
    cases isReal : real last <;> simp [enter,isReal,up]

end Cut

end PathText
