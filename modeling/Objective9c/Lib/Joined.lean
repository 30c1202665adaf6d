import Mathlib.Data.List.Infix

/-! Words joined by a doubled separator, and words marked by a repeated ending: when the text tells the words
apart again. -/
namespace Joined

variable {α : Type u} {s : α}

def glue (s : α) : List (List α) → List α
  | [] => []
  | [w] => w
  | w :: rest => w ++ s :: s :: glue s rest

/-- What follows the first word. -/
def tail (s : α) : List (List α) → List α
  | [] => []
  | rest => s :: s :: glue s rest

/-- The word has no doubled separator and does not end in one. -/
structure Clean (s : α) (w : List α) : Prop where
  inner : ¬[s,s] <:+: w
  last : w.getLast? ≠ some s

/-- No word has a doubled separator, and none ends in one before another word or where more is to follow. -/
inductive Spaced (s : α) (more : Bool) : List (List α) → Prop
  | nil : Spaced s more []
  | last : ¬[s,s] <:+: w → (more = true → w.getLast? ≠ some s) → Spaced s more [w]
  | cons : Clean s w → Spaced s more (v :: rest) → Spaced s more (w :: v :: rest)

theorem glue_cons (w : List α) (rest : List (List α)) : glue s (w :: rest) = w ++ tail s rest := by
  cases rest <;> simp [glue,tail]

theorem glue_append (ws vs : List (List α)) (nonempty : vs ≠ []) :
    glue s (ws ++ vs) = if ws = [] then glue s vs else glue s ws ++ s :: s :: glue s vs := by
  induction ws with
  | nil => simp
  | cons w rest ih =>
    rw [List.cons_append,glue_cons,glue_cons,if_neg (by simp)]
    cases rest with
    | nil =>
      simp [tail]
    | cons =>
      rw [List.cons_append] at ih ⊢
      simp [tail,ih]

theorem spaced_cons (nonempty : rest ≠ []) : Spaced s more (w :: rest) ↔ Clean s w ∧ Spaced s more rest := by
  constructor
  · intro spaced
    cases spaced with
    | last => exact absurd rfl nonempty
    | cons clean later => exact ⟨clean,later⟩
  · rintro ⟨clean,later⟩
    obtain ⟨v,rest,rfl⟩ := List.exists_cons_of_ne_nil nonempty
    exact .cons clean later

theorem Spaced.append (first : Spaced s true ws) (rest : Spaced s more vs) (nonempty : vs ≠ []) :
    Spaced s more (ws ++ vs) := by
  induction first with
  | nil => exact rest
  | last inner ending => exact (spaced_cons nonempty).mpr ⟨⟨inner,ending rfl⟩,rest⟩
  | cons clean _ ih => exact .cons clean ih

theorem not_reaching (inner : ¬[s,s] <:+: w ++ more) (last : rest' ≠ [] → (w ++ more).getLast? ≠ some s)
    (same : tail s rest = more ++ tail s rest') : more = [] := by
  match more, rest with
  | [], _ => rfl
  | [x], [] => simp [tail] at same
  | [x], _ :: _ =>
    obtain ⟨rfl,later⟩ : s = x ∧ _ = tail s rest' := by simpa [tail] using same
    cases rest' with
    | nil => simp [tail] at later
    | cons => exact absurd (by simp) (last (by simp))
  | x :: y :: more, [] => simp [tail] at same
  | x :: y :: more, _ :: _ =>
    obtain ⟨rfl,rfl,-⟩ : s = x ∧ s = y ∧ _ := by simpa [tail] using same
    exact absurd ⟨w,more,by simp⟩ inner

theorem Spaced.head (spaced : Spaced s more (w :: rest)) :
    ¬[s,s] <:+: w ∧ (rest ≠ [] → w.getLast? ≠ some s) := by
  cases spaced with
  | last inner => exact ⟨inner,by simp⟩
  | cons clean => exact ⟨clean.inner,fun _ => clean.last⟩

theorem first_word (spaced : Spaced s more (w :: rest)) (spaced' : Spaced s more' (v :: rest'))
    (same : w ++ tail s rest = v ++ tail s rest') : w = v ∧ tail s rest = tail s rest' := by
  obtain ⟨between,rfl,eq⟩ | ⟨between,rfl,eq⟩ := List.append_eq_append_iff.mp same
  · obtain rfl := not_reaching spaced'.head.1 spaced'.head.2 eq
    simpa using eq
  · obtain rfl := not_reaching spaced.head.1 spaced.head.2 eq
    simpa [eq_comm] using eq

theorem glue_injective (spaced : Spaced s more ws) (spaced' : Spaced s more' vs)
    (nonempty : ws ≠ []) (nonempty' : vs ≠ []) (same : glue s ws = glue s vs) : ws = vs := by
  induction ws generalizing vs with
  | nil => exact absurd rfl nonempty
  | cons w rest ih =>
    obtain ⟨v,rest',rfl⟩ := List.exists_cons_of_ne_nil nonempty'
    rw [glue_cons,glue_cons] at same
    obtain ⟨rfl,later⟩ := first_word spaced spaced' same
    cases rest with
    | nil =>
      cases rest' with
      | nil => rfl
      | cons => simp [tail] at later
    | cons x rest =>
      cases rest' with
      | nil => simp [tail] at later
      | cons y rest' =>
        have inner : glue s (x :: rest) = glue s (y :: rest') := by simpa [tail] using later
        have later := ((spaced_cons (by simp)).mp spaced).2
        have later' := ((spaced_cons (by simp)).mp spaced').2
        rw [ih later later' (by simp) (by simp) inner]

theorem Clean.append (clean : Clean s w) (clean' : Clean s v) (nonempty : v ≠ []) : Clean s (w ++ v) where
  inner := by
    rintro ⟨before,after,split⟩
    rw [List.append_assoc] at split
    obtain ⟨more,rfl,eq⟩ | ⟨more,rfl,eq⟩ := List.append_eq_append_iff.mp split
    · match more with
      | [] => exact clean'.inner ⟨[],after,by simpa using eq⟩
      | [x] =>
        obtain ⟨rfl,-⟩ : s = x ∧ _ := by simpa using eq
        exact clean.last (by simp)
      | x :: y :: more =>
        obtain ⟨rfl,rfl,-⟩ : s = x ∧ s = y ∧ _ := by simpa using eq
        exact clean.inner ⟨before,more,by simp⟩
    · exact clean'.inner ⟨more,after,by simpa using eq.symm⟩
  last := by
    rw [List.getLast?_append_of_ne_nil _ nonempty]
    exact clean'.last

/-- A text that does not end in the separator may be followed by more. -/
theorem spaced_true (spaced : Spaced s false ws) (last : (glue s ws).getLast? ≠ some s) : Spaced s true ws := by
  induction spaced with
  | nil => exact .nil
  | last inner => exact .last inner fun _ => last
  | @cons w v rest clean _ ih =>
    refine .cons clean (ih ?_)
    rw [glue_cons,tail,List.getLast?_append_of_ne_nil _ (by simp)] at last
    · cases is : glue s (v :: rest) with
      | nil => simp
      | cons => simpa [is] using last
    · simp

section Reading

variable [DecidableEq α]

/-- The words of a text, cut at every doubled separator from the left. -/
def pieces (s : α) : List α → List (List α)
  | [] => [[]]
  | [x] => [[x]]
  | x :: y :: rest => if x = s ∧ y = s then [] :: pieces s rest else (pieces s (y :: rest)).modifyHead (x :: ·)

theorem pieces_ne_nil (s : α) (text : List α) : pieces s text ≠ [] := by
  induction text using pieces.induct s with
  | case1 | case2 => simp [pieces]
  | case3 x y rest both => simp [pieces,both]
  | case4 x y rest apart ih => simpa [pieces,apart,List.modifyHead_eq_nil_iff] using ih

theorem glue_pieces (s : α) (text : List α) : glue s (pieces s text) = text := by
  induction text using pieces.induct s with
  | case1 | case2 => rfl
  | case3 x y rest both ih =>
    obtain ⟨rfl,rfl⟩ := both
    obtain ⟨first,more,is⟩ := List.exists_cons_of_ne_nil (pieces_ne_nil y rest)
    rw [pieces,if_pos ⟨rfl,rfl⟩,glue_cons,is,tail,← is,ih]
    · rfl
    · simp
  | case4 x y rest apart ih =>
    obtain ⟨first,more,is⟩ := List.exists_cons_of_ne_nil (pieces_ne_nil s (y :: rest))
    rw [pieces,if_neg apart,is,List.modifyHead_cons,glue_cons,List.cons_append,← glue_cons,← is,ih]

theorem spaced_pieces (s : α) (text : List α) : Spaced s false (pieces s text) := by
  induction text using pieces.induct s with
  | case1 => exact .last (by simp) (by simp)
  | case2 x => exact .last (by simp [List.infix_cons_iff]) (by simp)
  | case3 x y rest both ih =>
    rw [pieces,if_pos both,spaced_cons (pieces_ne_nil s rest)]
    exact ⟨⟨by simp,by simp⟩,ih⟩
  | case4 x y rest apart ih =>
    have whole := glue_pieces s (y :: rest)
    rw [pieces,if_neg apart]
    match is : pieces s (y :: rest) with
    | [] => exact absurd is (pieces_ne_nil s (y :: rest))
    | [] :: [] => simp [is,glue] at whole
    | [] :: _ :: _ =>
      -- the rest begins with a doubled separator, which the letter before it is not part of
      rw [is,glue_cons] at whole
      obtain ⟨rfl,-⟩ : s = y ∧ _ := by simpa [tail] using whole
      rw [is] at ih
      have other : x ≠ s := fun same => apart ⟨same,rfl⟩
      exact .cons ⟨by simp [List.infix_cons_iff],by simpa using other⟩ ((spaced_cons (by simp)).mp ih).2
    | (z :: word) :: more =>
      rw [is,glue_cons] at whole
      obtain ⟨rfl,-⟩ : z = y ∧ _ := by simpa using whole
      rw [is] at ih
      have inner : ¬[s,s] <:+: x :: z :: word := by
        rw [List.infix_cons_iff]
        rintro (⟨after,front⟩ | later)
        · obtain ⟨rfl,rfl,-⟩ : s = x ∧ s = z ∧ _ := by simpa using front
          exact apart ⟨rfl,rfl⟩
        · exact ih.head.1 later
      cases more with
      | nil => exact .last inner (by simp)
      | cons =>
        obtain ⟨clean,later⟩ := (spaced_cons (by simp)).mp ih
        exact .cons ⟨inner,by simpa using clean.last⟩ later

end Reading

section Marks

variable {mark : List α}

/-- A word and how often it is marked. -/
def marked (mark : List α) (w : List α × Nat) : List α := w.1 ++ (List.replicate w.2 mark).flatten

theorem marked_succ (w : List α) (k : Nat) : marked mark (w,k + 1) = marked mark (w,k) ++ mark := by
  simp [marked,List.replicate_succ',List.flatten_append]

theorem Clean.marked (clean : Clean s w) (mark_clean : Clean s mark) (nonempty : mark ≠ []) (k : Nat) :
    Clean s (Joined.marked mark (w,k)) := by
  induction k with
  | zero => simpa [Joined.marked] using clean
  | succ k ih =>
    rw [marked_succ]
    exact ih.append mark_clean nonempty

/-- The word looks as if the other one were marked in it. -/
def Feigns (mark w v : List α) : Prop := v ++ mark <+: w ∧ mark <:+ w

instance [DecidableEq α] (mark w v : List α) : Decidable (Feigns mark w v) :=
  inferInstanceAs (Decidable (v ++ mark <+: w ∧ mark <:+ w))

theorem feigns_of_marked (same : marked mark (w,k) = marked mark (v,k + i + 1)) : Feigns mark w v := by
  have whole : w = marked mark (v,i + 1) := by
    have split : marked mark (v,k + i + 1) = marked mark (v,i + 1) ++ (List.replicate k mark).flatten := by
      simp only [marked]
      rw [show k + i + 1 = i + 1 + k by omega,List.replicate_add,List.flatten_append,List.append_assoc]
    rw [split,marked] at same
    exact List.append_cancel_right same
  constructor
  · rw [whole,marked,List.replicate_succ,List.flatten_cons,← List.append_assoc]
    exact List.prefix_append _ _
  · rw [whole,marked_succ]
    exact List.suffix_append _ _

theorem marked_injective {w v : List α × Nat} (apart : w.2 < v.2 → ¬Feigns mark w.1 v.1)
    (apart' : v.2 < w.2 → ¬Feigns mark v.1 w.1) (same : marked mark w = marked mark v) : w = v := by
  obtain ⟨w,k⟩ := w
  obtain ⟨v,j⟩ := v
  obtain less | rfl | more := Nat.lt_trichotomy k j
  · obtain ⟨i,rfl⟩ := Nat.exists_eq_add_of_lt less
    exact absurd (feigns_of_marked same) (apart less)
  · exact congrArg (·,k) (List.append_cancel_right same)
  · obtain ⟨i,rfl⟩ := Nat.exists_eq_add_of_lt more
    exact absurd (feigns_of_marked same.symm) (apart' more)

end Marks

end Joined
