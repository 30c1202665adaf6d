import Mathlib.Data.Fintype.EquivFin
import Objective9c.Runtime.ObjectTable

/-! The object table as a map from names to handles: what the registrations and unregistrations of any history
leave in it, whatever the generations have come to. -/
namespace Objective9c.ObjectTable

open Transition Probing List Function

section Probes

/-- The slot of a step of the walk. -/
def probeAt (cls oid : List UInt8) (step : Fin maxObjects) : Fin maxObjects :=
  ⟨(((o9Hash cls ^^^ o9Hash oid) &&& (maxObjects - 1)) + step) &&& (maxObjects - 1),
    Nat.lt_of_le_of_lt Nat.and_le_right (by decide)⟩

section

variable (cls oid : List UInt8)

theorem probes_eq : probes cls oid = (finRange maxObjects).map (probeAt cls oid) := by
  have steps (l : List (Fin maxObjects)) : (do let a ← l; pure a.val) = l.map Fin.val := by
    induction l with
    | nil => rfl
    | cons a l ih => exact congrArg (a.val :: ·) ih
  unfold probes
  rw [steps,map_map]
  rfl

theorem probeAt_val (step : Fin maxObjects) :
    (probeAt cls oid step).val = (((o9Hash cls ^^^ o9Hash oid) &&& (maxObjects - 1)) + step) % 256 :=
  Nat.and_two_pow_sub_one_eq_mod _ 8

theorem probeAt_injective : Function.Injective (probeAt cls oid) := by
  intro step step' same
  have equal := congrArg Fin.val same
  rw [probeAt_val,probeAt_val] at equal
  refine Fin.ext ?_
  simp only [maxObjects] at *
  omega

theorem mem_probes (slot : Fin maxObjects) : slot ∈ probes cls oid := by
  obtain ⟨step,rfl⟩ := (Finite.injective_iff_surjective.mp (probeAt_injective cls oid)) slot
  rw [probes_eq]
  exact mem_map_of_mem (mem_finRange step)

end

theorem reaches_step (reaches : Reaches cells (probes cls oid) slot) :
    ∃ step, probeAt cls oid step = slot ∧ ∀ earlier < step, cells (probeAt cls oid earlier) ≠ .empty := by
  obtain ⟨before,after,split,filled⟩ := reaches
  rw [probes_eq] at split
  have length : before.length < maxObjects := by
    have total := congrArg length split
    simp only [length_map,length_finRange,length_append,length_cons] at total
    omega
  have place (k : Fin maxObjects) : (before ++ slot :: after)[k.val]? = some (probeAt cls oid k) := by
    rw [← split]
    simp
  refine ⟨⟨before.length,length⟩,?_,fun earlier lt => ?_⟩
  · simpa using (place ⟨before.length,length⟩).symm
  · have inside := place earlier
    rw [getElem?_append_left lt] at inside
    exact filled _ (mem_of_getElem? inside)

end Probes

section Invariant

variable {t next : Table} {cls oid : List UInt8} {i : Fin maxObjects}

/-- An entry is registered and unregistered in turn, so its generation is odd while it is active. -/
def Alternates (e : Entry) : Prop := e.gen < 2 ^ 32 ∧ (e.gen % 2 = 1 ↔ e.active = true)

theorem Alternates.registered (alternates : Alternates e) (inactive : e.active = false) :
    nextGen e.gen = e.gen + 1 ∧ e.gen + 1 < 2 ^ 32 ∧ (e.gen + 1) % 2 = 1 := by
  obtain ⟨small,odd⟩ := alternates
  have even : ¬e.gen % 2 = 1 := by simp [odd,inactive]
  have fits : (e.gen + 1) % 2 ^ 32 = e.gen + 1 := Nat.mod_eq_of_lt (by omega)
  refine ⟨?_,by omega,by omega⟩
  rw [nextGen,fits,if_neg (by omega)]

theorem alternates_kept (alternates : ∀ i, Alternates (t.entries i)) (stepped : step r t = some next)
    (j : Fin maxObjects) : Alternates (next.entries j) := by
  have becomes := step_becomes stepped j
  generalize next.entries j = e at becomes ⊢
  cases becomes with
  | kept => exact alternates j
  | taken _ _ entry =>
    obtain ⟨gen,small,odd⟩ := (alternates j).registered (freeEntry_some entry)
    simp only [Alternates,gen]
    exact ⟨small,by simp [odd]⟩
  | left _ active =>
    have odd := (alternates j).2.mpr active
    refine ⟨Nat.mod_lt _ (by decide),?_⟩
    simp only [Bool.false_eq_true,iff_false]
    omega

end Invariant

section Map

/-- The name has an active entry. -/
def Has (t : Table) (cls oid : List UInt8) : Prop := ∃ i, named t cls oid i = true

def activeCount (t : Table) : Nat := (List.finRange maxObjects).countP fun i => (t.entries i).active

/-- The names are unique, and the walk from a name's hash meets its entry at one step, without an empty slot
before it. -/
structure IsMap (t : Table) : Prop where
  unique : named t cls oid i = true → named t cls oid j = true → i = j
  single : t.cells slot = .holds i → t.cells slot' = .holds i → slot = slot'
  probed : named t cls oid i = true → ∃ step, t.cells (probeAt cls oid step) = .holds i ∧
    (∀ earlier < step, t.cells (probeAt cls oid earlier) ≠ .empty) ∧
    ∀ step', t.cells (probeAt cls oid step') = .holds i → step' = step

variable {t : Table} {cls oid : List UInt8} {i : Fin maxObjects} {g : Nat}

theorem has_update (e : Entry) (c o : List UInt8) : Has ⟨update t.entries i e,cells⟩ c o ↔
    (e.active = true ∧ e.cls = c ∧ e.oid = o) ∨ ∃ j, j ≠ i ∧ named t c o j = true := by
  constructor
  · rintro ⟨j,matched⟩
    by_cases here : j = i
    · subst here
      exact .inl (by simpa [named,and_assoc] using matched)
    · exact .inr ⟨j,here,by simpa [named,here] using matched⟩
  · rintro (matched | ⟨j,other,matched⟩)
    · exact ⟨i,by simpa [named,and_assoc] using matched⟩
    · exact ⟨j,by simpa [named,other] using matched⟩

theorem register_known (found : find t.cells (named t cls oid) (probes cls oid) = some (slot,i)) :
    register cls oid inst chan t = (⟨update t.entries i
          { t.entries i with inst := inst.or (t.entries i).inst, chan := chan.or (t.entries i).chan },t.cells⟩,
        handle (t.entries i).gen i) := by
  have hit := registerLoop_fst t cls oid none (probes cls oid)
  rw [found] at hit
  unfold register
  cases loop : registerLoop t cls oid none (probes cls oid) with
  | mk entry =>
    obtain rfl : entry = some i := by simpa [loop] using hit
    rfl

theorem register_fresh (absent : find t.cells (named t cls oid) (probes cls oid) = none)
    (room : free t.cells (probes cls oid) = some slot) (entry : freeEntry t = some i) :
    register cls oid inst chan t = (⟨update t.entries i
          { gen := nextGen (t.entries i).gen, active := true, cls := copied cls, oid := copied oid, inst, chan },
        update t.cells slot (.holds i)⟩,handle (nextGen (t.entries i).gen) i) := by
  have miss := registerLoop_fst t cls oid none (probes cls oid)
  have found := registerLoop_snd t cls oid none (probes cls oid)
  rw [absent] at miss
  unfold register
  cases loop : registerLoop t cls oid none (probes cls oid) with
  | mk hit place =>
    obtain rfl : hit = none := by simpa [loop] using miss
    obtain rfl : place = some slot := by simpa [loop,room] using found
    simp only [entry]

theorem Indexed.find_of_named (indexed : Indexed t) (matched : named t cls oid i = true) :
    ∃ slot, find t.cells (named t cls oid) (probes cls oid) = some (slot,i) := by
  obtain ⟨active,rfl,rfl⟩ := named_iff.mp matched
  exact indexed.find_eq active

theorem Indexed.exists_vacant (indexed : Indexed t) (inactive : (t.entries i).active = false) :
    ∃ slot, ∀ j, t.cells slot ≠ .holds j := by
  by_contra full
  simp only [not_exists,not_forall,not_not] at full
  choose entry stored using full
  have injective : Function.Injective entry := by
    intro slot slot' same
    exact indexed.single (stored slot) (same ▸ stored slot')
  obtain ⟨slot,rfl⟩ := Finite.injective_iff_surjective.mp injective i
  simp [indexed.owner (stored slot)] at inactive

theorem exists_inactive (fewer : activeCount t < maxObjects) : ∃ i, (t.entries i).active = false := by
  by_contra all
  simp only [not_exists,Bool.not_eq_false] at all
  have count : activeCount t = (finRange maxObjects).length := countP_eq_length.mpr fun i _ => all i
  rw [length_finRange] at count
  omega

theorem handle_ne_zero (odd : g % 2 = 1) (i : Fin maxObjects) : handle g i ≠ 0 := by
  have positive : 0 < (g <<< 16) % 2 ^ 32 := by
    omega
  exact Nat.ne_of_gt (Nat.lt_of_lt_of_le positive Nat.left_le_or)

theorem Indexed.register_new (indexed : Indexed t) (alternates : ∀ i, Alternates (t.entries i))
    (short : cls.length < 64 ∧ oid.length < 64) (new : ¬Has t cls oid) (fewer : activeCount t < maxObjects) :
    (register cls oid inst chan t).2 ≠ 0 ∧
      ∀ c o, Has (register cls oid inst chan t).1 c o ↔ Has t c o ∨ c = cls ∧ o = oid := by
  have absent : find t.cells (named t cls oid) (probes cls oid) = none := by
    cases found : find t.cells (named t cls oid) (probes cls oid) with
    | none => rfl
    | some hit => exact absurd ⟨hit.2,(find_some found).2⟩ new
  obtain ⟨j,inactive⟩ := exists_inactive fewer
  obtain ⟨slot,vacant⟩ := indexed.exists_vacant inactive
  obtain ⟨slot,room⟩ := Option.isSome_iff_exists.mp (free_isSome (mem_probes cls oid slot) vacant)
  obtain ⟨i,entry⟩ : ∃ i, freeEntry t = some i := by
    refine Option.isSome_iff_exists.mp (find?_isSome.mpr ⟨j,mem_finRange j,?_⟩)
    simp [inactive]
  have free := freeEntry_some entry
  obtain ⟨gen,-,odd⟩ := (alternates i).registered free
  rw [register_fresh absent room entry]
  refine ⟨handle_ne_zero (gen ▸ odd) i,fun c o => ?_⟩
  have old : (∃ j, j ≠ i ∧ named t c o j = true) ↔ Has t c o := by
    refine ⟨fun ⟨j,_,matched⟩ => ⟨j,matched⟩,fun ⟨j,matched⟩ => ⟨j,?_,matched⟩⟩
    rintro rfl
    simp [(named_iff.mp matched).1] at free
  rw [has_update,old,copied_eq short.1,copied_eq short.2]
  tauto

theorem Indexed.register_again (indexed : Indexed t) (live : Live t i g cls oid) :
    (register cls oid inst chan t).2 = handle g i := by
  obtain ⟨slot,found⟩ := indexed.find_of_named (named_iff.mpr ⟨live.active,live.cls,live.oid⟩)
  rw [register_known found,live.gen]

theorem register_names (short : cls.length < 64 ∧ oid.length < 64) (granted : (register cls oid inst chan t).2 ≠ 0) :
    ∃ i g, (register cls oid inst chan t).2 = handle g i ∧ Live (register cls oid inst chan t).1 i g cls oid := by
  have made := registered t cls oid inst chan
  generalize register cls oid inst chan t = result at made granted
  cases made with
  | known found new =>
    obtain ⟨active,rfl,rfl⟩ := named_iff.mp (find_some found).2
    subst new
    exact ⟨_,_,rfl,⟨by simpa using active,by simp,by simp,by simp⟩⟩
  | fresh absent room entry new =>
    subst new
    exact ⟨_,_,rfl,⟨by simp,by simp,by simp [copied_eq short.1],by simp [copied_eq short.2]⟩⟩
  | full => exact absurd rfl granted

theorem Live.along (live : Live t i g cls oid) (kept : .unregister cls oid ∉ requests)
    (ran : run step requests t = some final) : Live final i g cls oid := by
  induction requests generalizing t with
  | nil =>
    cases ran
    exact live
  | cons r rest ih =>
    obtain ⟨next,stepped,ran⟩ := run_cons_some.mp ran
    simp only [mem_cons,not_or] at kept
    exact ih (live.kept (Ne.symm kept.1) stepped) kept.2 ran

theorem Indexed.has_unregister (indexed : Indexed t) (c o : List UInt8) :
    Has (unregister cls oid t) c o ↔ Has t c o ∧ ¬(c = cls ∧ o = oid) := by
  unfold unregister
  cases found : find t.cells (named t cls oid) (probes cls oid) with
  | none =>
    refine ⟨fun has => ⟨has,?_⟩,And.left⟩
    rintro ⟨rfl,rfl⟩
    obtain ⟨i,matched⟩ := has
    obtain ⟨slot,hit⟩ := indexed.find_of_named matched
    simp [found] at hit
  | some =>
    obtain ⟨active,rfl,rfl⟩ := named_iff.mp (find_some found).2
    simp only [has_update,Bool.false_eq_true,false_and,false_or]
    constructor
    · rintro ⟨j,other,matched⟩
      refine ⟨⟨j,matched⟩,?_⟩
      rintro ⟨rfl,rfl⟩
      exact other (indexed.unique active matched).symm
    · rintro ⟨⟨j,matched⟩,different⟩
      refine ⟨j,?_,matched⟩
      rintro rfl
      obtain ⟨-,rfl,rfl⟩ := named_iff.mp matched
      exact different ⟨rfl,rfl⟩

theorem Indexed.isMap (indexed : Indexed t) : IsMap t where
  unique matched matched' := by
    obtain ⟨active,rfl,rfl⟩ := named_iff.mp matched
    exact indexed.unique active matched'
  single := indexed.single
  probed matched := by
    obtain ⟨active,rfl,rfl⟩ := named_iff.mp matched
    obtain ⟨slot,stored,reaches⟩ := indexed.chained active
    obtain ⟨step,rfl,filled⟩ := reaches_step reaches
    refine ⟨step,stored,filled,fun step' stored' => ?_⟩
    exact probeAt_injective _ _ (indexed.single stored' stored)

/-- Whatever was registered and unregistered, the table maps the active names to their handles: a name that is
registered again keeps its handle, a new one is registered unless all entries are active, and unregistering takes away
that name only. -/
theorem objtab_is_map (past : List Request) (short : ∀ r ∈ past, r.Short) (t : Table)
    (ran : run step past {} = some t) :
    IsMap t ∧
    (∀ cls oid inst chan, cls.length < 64 ∧ oid.length < 64 → ¬Has t cls oid → activeCount t < maxObjects →
      (register cls oid inst chan t).2 ≠ 0 ∧
        ∀ c o, Has (register cls oid inst chan t).1 c o ↔ Has t c o ∨ c = cls ∧ o = oid) ∧
    (∀ cls oid inst chan inst' chan' future later, cls.length < 64 ∧ oid.length < 64 →
      (register cls oid inst chan t).2 ≠ 0 → (∀ r ∈ future, r.Short) → .unregister cls oid ∉ future →
      run step future (register cls oid inst chan t).1 = some later →
      (register cls oid inst' chan' later).2 = (register cls oid inst chan t).2) ∧
    ∀ cls oid c o, Has (unregister cls oid t) c o ↔ Has t c o ∧ ¬(c = cls ∧ o = oid) := by
  have reached (requests : List Request) (s final : Table) (short : ∀ r ∈ requests, r.Short)
      (indexed : Indexed s) (ran : run step requests s = some final) : Indexed final := by
    have meets : Meets step (fun r _ => r.Short) requests s :=
      meets_of_labels requests s fun r member _ => short r member
    exact run_invariant_of_meets Indexed (fun _ _ _ indexed short stepped => indexed.kept short stepped) requests s
      final meets indexed ran
  have indexed := reached past {} t short indexed_init ran
  have alternates : ∀ i, Alternates (t.entries i) :=
    run_invariant (fun t => ∀ i, Alternates (t.entries i))
      (fun _ _ _ alternates stepped => alternates_kept alternates stepped) past {} t (by simp [Alternates]) ran
  refine ⟨indexed.isMap,?_,?_,fun cls oid => indexed.has_unregister⟩
  · intro cls oid inst chan short new fewer
    exact indexed.register_new alternates short new fewer
  · intro cls oid inst chan inst' chan' future later short granted shorts kept ran
    obtain ⟨i,g,returned,live⟩ := register_names short granted
    have indexed' : Indexed (register cls oid inst chan t).1 :=
      indexed.kept (r := .register cls oid inst chan) short rfl
    rw [returned]
    exact (reached future _ later shorts indexed' ran).register_again (live.along kept ran)

def otherOid : List UInt8 := [98,65]

def collidingOid : List UInt8 := [97,98]

/-- Two objects of one hash value, the first of them gone again. -/
def collision : List Request :=
  [.register clsName collidingOid none (some 1),.register clsName otherOid none (some 2),
    .unregister clsName collidingOid]

theorem collision_map : ∃ t, run step collision {} = some t ∧
    (probes clsName collidingOid).head? = (probes clsName otherOid).head? ∧ IsMap t ∧ Has t clsName otherOid ∧
    ¬Has t clsName collidingOid ∧ (register clsName collidingOid none (some 3) t).2 ≠ 0 ∧
    Has (register clsName collidingOid none (some 3) t).1 clsName otherOid ∧
    ¬Has (unregister clsName otherOid t) clsName otherOid := by
  have short : ∀ r ∈ collision, r.Short := by simp [collision,clsName,otherOid,collidingOid]
  obtain ⟨-,-,-,removed⟩ := objtab_is_map (collision.take 2) (fun r member => short r (mem_of_mem_take member)) _ rfl
  have gone := (removed clsName collidingOid clsName collidingOid).not.mpr (by simp)
  obtain ⟨isMap,new,-,removed⟩ := objtab_is_map collision short _ rfl
  have there : Has ((run step collision {}).get rfl) clsName otherOid := ⟨1,by decide⟩
  obtain ⟨granted,has⟩ := new clsName collidingOid none (some 3) (by decide) gone (by decide +kernel)
  exact ⟨_,rfl,by decide,isMap,there,gone,granted,(has _ _).mpr (.inl there),by simp [removed]⟩

end Map

end Objective9c.ObjectTable
