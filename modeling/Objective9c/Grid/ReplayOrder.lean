import Mathlib.Data.List.Lex
import Mathlib.Data.Prod.Lex
import Objective9c.Lib.Text

/-! The order in which `o9mutreplay` goes through a journal: an index of the loaded events, sorted bottom up by
time stamp, origin and sequence number. -/
namespace Objective9c.Grid.Replay

open Text List Bool

structure Event where
  ts : Int
  origin : Bytes
  seq : Int
  deriving Inhabited

/-- What `strcmp` compares. -/
def Event.bytes (e : Event) : List Nat := e.origin.map UInt8.toNat

/-- `EVGT`. -/
def Event.gt (a b : Event) : Bool :=
  b.ts < a.ts || (b.ts == a.ts && (b.bytes < a.bytes || (b.bytes == a.bytes && b.seq < a.seq)))

/-- The round of the loop over `left` for one width: each pair of runs is merged, the last ones may be short. -/
def pass (ev : Nat → Event) (width : Nat) (idx : List Nat) : List Nat :=
  if idx = [] ∨ width = 0 then []
  else (idx.take width).merge ((idx.drop width).take width) (fun a b => !(ev a).gt (ev b)) ++
    pass ev width (idx.drop (2 * width))
termination_by idx.length
decreasing_by
  rename_i more
  have some := length_pos_iff.mpr (not_or.mp more).1
  rw [length_drop]
  omega

def sortFrom (ev : Nat → Event) (nev width : Nat) (idx : List Nat) : List Nat :=
  if 0 < width ∧ width < nev then sortFrom ev nev (width * 2) (pass ev width idx) else idx
termination_by nev - width

def replayIndex (events : List Event) : List Nat :=
  sortFrom (events.getD · default) events.length 1 (range events.length)

def Event.key (e : Event) : Int ×ₗ List Nat ×ₗ Int := toLex (e.ts,toLex (e.bytes,e.seq))

theorem Event.gt_iff (a b : Event) : a.gt b = true ↔ b.key < a.key := by
  simp [Event.gt,Event.key,Prod.Lex.toLex_lt_toLex]

section Passes

variable {ev : Nat → Event}

/-- Where an event stands: by its key, and for equal keys by its line. -/
def place (ev : Nat → Event) (i : Nat) : (Int ×ₗ List Nat ×ₗ Int) ×ₗ Nat := toLex ((ev i).key,i)

theorem place_lt_iff : place ev i < place ev j ↔ (ev i).key < (ev j).key ∨ (ev i).key = (ev j).key ∧ i < j :=
  Prod.Lex.toLex_lt_toLex

theorem merge_sorted {xs : List Nat} (sorted : xs.Pairwise (place ev · < place ev ·))
    (sorted' : ys.Pairwise (place ev · < place ev ·)) (later : ∀ x ∈ xs, ∀ y ∈ ys, x < y) :
    (xs.merge ys fun a b => !(ev a).gt (ev b)).Pairwise (place ev · < place ev ·) := by
  fun_induction List.merge xs ys fun a b => !(ev a).gt (ev b) with
  | case1 => exact sorted'
  | case2 => exact sorted
  | case3 x xs y ys first ih =>
    obtain ⟨least,rest⟩ := pairwise_cons.mp sorted
    refine pairwise_cons.mpr ⟨?_,ih rest sorted' fun a member => later a (mem_cons_of_mem x member)⟩
    have before : place ev x < place ev y := by
      rw [not_eq_true',eq_false_iff,Ne,Event.gt_iff,not_lt] at first
      rw [place_lt_iff]
      exact (lt_or_eq_of_le first).imp_right fun same => ⟨same,later x mem_cons_self y mem_cons_self⟩
    intro z member
    obtain left | right := mem_merge.mp member
    · exact least z left
    · obtain rfl | right := mem_cons.mp right
      · exact before
      · exact before.trans ((pairwise_cons.mp sorted').1 z right)
  | case4 x xs y ys first ih =>
    obtain ⟨least,rest⟩ := pairwise_cons.mp sorted'
    refine pairwise_cons.mpr ⟨?_,ih sorted rest fun a member b later' => later a member b (mem_cons_of_mem y later')⟩
    have before : place ev y < place ev x := by
      rw [not_eq_true',not_eq_false,Event.gt_iff] at first
      exact place_lt_iff.mpr (.inl first)
    intro z member
    obtain left | right := mem_merge.mp member
    · obtain rfl | left := mem_cons.mp left
      · exact before
      · exact before.trans ((pairwise_cons.mp sorted).1 z left)
    · exact least z right

/-- Runs of one width, the last of which may be short, each in order and with the lines of the file that follow
those of the runs before. -/
inductive Runs (ev : Nat → Event) (width : Nat) : List Nat → Prop where
  | nil : Runs ev width []
  | cons {run rest : List Nat} (full : run.length = width ∨ run.length ≤ width ∧ rest = [])
      (sorted : run.Pairwise (place ev · < place ev ·)) (later : ∀ x ∈ run, ∀ y ∈ rest, x < y) (more : Runs ev width rest) : Runs ev width (run ++ rest)

theorem runs_one (ev : Nat → Event) : ∀ {idx : List Nat}, idx.Pairwise (· < ·) → Runs ev 1 idx
  | [], _ => .nil
  | i :: idx, sorted =>
    have ⟨least,rest⟩ := pairwise_cons.mp sorted
    .cons (.inl (length_singleton (a := i))) (pairwise_singleton _ _) (by simpa using least) (runs_one ev rest)

theorem Runs.sorted (runs : Runs ev width idx) (wide : idx.length ≤ width) :
    idx.Pairwise (place ev · < place ev ·) := by
  cases runs with
  | nil => exact .nil
  | @cons run rest full sorted =>
    obtain rfl : rest = [] := by
      rw [length_append] at wide
      obtain long | ⟨_,none⟩ := full
      · exact length_eq_zero_iff.mp (by omega)
      · exact none
    simpa using sorted

theorem pass_perm (positive : 0 < width) (idx : List Nat) : (pass ev width idx).Perm idx := by
  fun_induction pass ev width idx with
  | case1 idx done =>
    obtain rfl := done.resolve_right (Nat.ne_of_gt positive)
    rfl
  | case2 idx _ ih =>
    calc _ ~ (idx.take width ++ (idx.drop width).take width) ++ idx.drop (2 * width) :=
          (merge_perm_append _).append ih
      _ = idx := by rw [append_assoc,Nat.two_mul,← drop_drop,take_append_drop,take_append_drop]

theorem Runs.split (runs : Runs ev width idx) : (idx.take width).Pairwise (place ev · < place ev ·) ∧
    (∀ x ∈ idx.take width, ∀ y ∈ idx.drop width, x < y) ∧ Runs ev width (idx.drop width) := by
  cases runs with
  | nil => exact ⟨by simp,by simp,by simpa using .nil⟩
  | @cons run rest full sorted later more =>
    obtain rfl | ⟨short,rfl⟩ := full
    · simpa using ⟨sorted,later,more⟩
    · simpa [take_of_length_le,drop_of_length_le,short] using ⟨sorted,.nil⟩

theorem Runs.pass (positive : 0 < width) (runs : Runs ev width idx) : Runs ev (width * 2) (pass ev width idx) := by
  fun_induction Replay.pass ev width idx with
  | case1 => exact .nil
  | case2 idx _ ih =>
    obtain ⟨sorted,later,runs'⟩ := runs.split
    obtain ⟨sorted',later',more⟩ := runs'.split
    have same : (idx.drop width).drop width = idx.drop (2 * width) := by rw [drop_drop,Nat.two_mul]
    rw [same] at more later'
    refine .cons ?_ (merge_sorted sorted sorted' fun x left y right => later x left y (mem_of_mem_take right)) ?_ (ih more)
    · rw [(merge_perm_append _).length_eq,← length_eq_zero_iff,(pass_perm positive _).length_eq]
      grind
    · intro x member y behind
      have behind := (pass_perm positive _).mem_iff.mp behind
      obtain left | right := mem_merge.mp member
      · exact later x left y (by rw [← same] at behind; exact mem_of_mem_drop behind)
      · exact later' x right y behind

theorem sortFrom_sorted (positive : 0 < width) (runs : Runs ev width idx) (length : idx.length = nev) :
    (sortFrom ev nev width idx).Perm idx ∧ (sortFrom ev nev width idx).Pairwise (place ev · < place ev ·) := by
  fun_induction sortFrom ev nev width idx with
  | case1 width idx _ ih =>
    have same : (pass ev width idx).Perm idx := pass_perm positive idx
    obtain ⟨perm,sorted⟩ := ih (by omega) (runs.pass positive) (same.length_eq.trans length)
    exact ⟨perm.trans same,sorted⟩
  | case2 => exact ⟨.rfl,runs.sorted (by omega)⟩

end Passes

/-- The index holds every loaded event once, by time stamp, origin and sequence number, and events that are equal
in all three in the order of the file. -/
theorem replayIndex_sorted (events : List Event) : (replayIndex events).Perm (range events.length) ∧
    (replayIndex events).Pairwise fun i j => let at_ (k : Nat) := events.getD k default
      (at_ i).key < (at_ j).key ∨ (at_ i).key = (at_ j).key ∧ i < j := by
  obtain ⟨perm,sorted⟩ := sortFrom_sorted Nat.one_pos
    (runs_one (events.getD · default) pairwise_lt_range) length_range
  exact ⟨perm,sorted.imp place_lt_iff.mp⟩

end Objective9c.Grid.Replay
