import Objective9c.Lib.Fields
import Objective9c.Lib.Lines
import Objective9c.Runtime.Numbers

/-! The text of the journal. `o9_append_event` writes an event as one row through a buffer of 2048 bytes, in two steps,
and ends the row only when the buffer has room; `o9_journal_split` reads a row back. -/
namespace Objective9c.Grid.JournalText

open Text List Numbers Fields Lines

structure Event where
  seq : Int
  ms : Int
  origin : Bytes
  type : Bytes
  kind : Bytes
  id : Bytes
  detail : Bytes
  fields_clean : ∀ field ∈ [origin,type,kind,id], ∀ c ∈ field, c ∉ [0,tabChar,newline]
  detail_clean : ∀ c ∈ detail, c ∉ [0,newline]

namespace Event

def fields (e : Event) : List Bytes := [decimal e.seq,decimal e.ms,e.origin,e.type,e.kind,e.id]

def header (e : Event) : Bytes := Fields.join tabChar e.fields

/-- `line[2048]` without the zero byte of `snprint`. -/
def room : Nat := 2047

/-- What the two calls of `snprint` leave in the buffer. -/
def row (e : Event) : Bytes :=
  let line := cut room e.header
  if e.detail ≠ [] ∧ line.length < 2044 then line ++ cut (room - line.length) (tabChar :: e.detail) else line

def o9AppendEvent (e : Event) (file : Bytes) : Bytes :=
  file ++ if e.row.length < room then e.row ++ [newline] else e.row

end Event

def journal (events : List Event) : Bytes := events.foldl (fun file e => e.o9AppendEvent file) []

/-- The loop of `o9_journal_split` with `n` fields to go; a field it does not reach is empty. -/
def o9JournalSplit : Nat → Bytes → List Bytes × Bytes
  | 0, rest => ([],rest)
  | n+1, text =>
    let field := text.takeWhile (Fields.plain tabChar fun _ => false)
    match text.dropWhile (Fields.plain tabChar fun _ => false) with
    | [] => (field :: replicate n [],[])
    | _ :: rest => (field :: (o9JournalSplit n rest).1,(o9JournalSplit n rest).2)

/-- A line gives the fields of an event and the beginning of its detail. -/
def Recovered (e : Event) (line : Bytes) : Prop :=
  (o9JournalSplit 6 line).1 = e.fields ∧ (o9JournalSplit 6 line).2 <+: e.detail

/-- Every event has its own line of the file. -/
def Readable (events : List Event) : Prop := Forall₂ Recovered events (Lines.read newline [] (journal events))

/-- The header leaves a byte of the buffer, and there is no detail, no room for one, or a byte left behind as much of
it as is copied. -/
def Event.Fits (e : Event) : Prop :=
  e.header.length < room ∧ (e.detail = [] ∨ 2044 ≤ e.header.length ∨
    (cut (room - e.header.length) (tabChar :: e.detail)).length < room - e.header.length)

/-- The buffer cuts off nothing but the tabs before empty fields. -/
def Event.Named (e : Event) : Prop := ∀ c ∈ e.header.drop (boundary e.header 3 room), c = tabChar

abbrev Clean (field : Bytes) : Prop := Fields.Clean tabChar (fun _ => false) field

theorem split_tab (n : Nat) (clean : Clean field) (rest : Bytes) : o9JournalSplit (n+1) (field ++ tabChar :: rest) =
      (field :: (o9JournalSplit n rest).1,(o9JournalSplit n rest).2) := by
  obtain ⟨taken,dropped⟩ := takeWhile_clean clean (tabChar :: rest) (by simp [plain])
  simp only [o9JournalSplit,taken,dropped]

theorem split_end (n : Nat) (clean : Clean field) : o9JournalSplit (n+1) field = (field :: replicate n [],[]) := by
  obtain ⟨taken,dropped⟩ := takeWhile_clean clean [] (by simp)
  rw [append_nil] at taken dropped
  simp only [o9JournalSplit,taken,dropped]

theorem split_detail (first : Bytes) (rest : List Bytes) (clean : ∀ field ∈ first :: rest, Clean field)
    (detail : Bytes) : o9JournalSplit (rest.length + 1) (join tabChar (first :: rest) ++ tabChar :: detail) =
      (first :: rest,detail) := by
  induction rest generalizing first with
  | nil => exact split_tab 0 (clean first mem_cons_self) detail
  | cons second rest ih =>
    rw [join_cons first (by simp),append_assoc,cons_append,length_cons,
      split_tab _ (clean first mem_cons_self),ih second fun field member => clean field (mem_cons_of_mem first member)]

theorem take_clean_iff (clean : Clean field) (n : Nat) : field.take n = field ↔ ∀ c ∈ field.drop n, c = tabChar := by
  constructor
  · intro whole
    have short : field.length ≤ n := by simpa using congrArg length whole
    simp [drop_eq_nil_of_le short]
  · intro tabs
    refine take_of_length_le (drop_eq_nil_iff.mp (eq_nil_iff_forall_not_mem.mpr fun c member => ?_))
    exact (clean c (mem_of_mem_drop member)).1 (tabs c member)

theorem split_cut (first : Bytes) (rest : List Bytes) (clean : ∀ field ∈ first :: rest, Clean field) (n : Nat) :
    (o9JournalSplit (rest.length + 1) ((join tabChar (first :: rest)).take n)).2 = [] ∧
    ((o9JournalSplit (rest.length + 1) ((join tabChar (first :: rest)).take n)).1 = first :: rest ↔
      ∀ c ∈ (join tabChar (first :: rest)).drop n, c = tabChar) := by
  have front : Clean first := clean first mem_cons_self
  have cut (k : Nat) : o9JournalSplit (k+1) (first.take n) = (first.take n :: replicate k [],[]) :=
    split_end k fun c member => front c (mem_of_mem_take member)
  induction rest generalizing first n with
  | nil => simpa [join,cut] using take_clean_iff front n
  | cons second rest ih =>
    have later : ∀ field ∈ second :: rest, Clean field := fun field member => clean field (mem_cons_of_mem first member)
    have again (m : Nat) := ih second later m (later second mem_cons_self) fun k =>
      split_end k fun c member => later second mem_cons_self c (mem_of_mem_take member)
    rw [join_cons first (by simp),length_cons]
    obtain inside | ⟨m,rfl⟩ : n ≤ first.length ∨ ∃ m, n = first.length + (m + 1) := by
      by_cases inside : n ≤ first.length
      · exact .inl inside
      · exact .inr ⟨n - first.length - 1,by omega⟩
    · -- the row ends in the first field: the others come out empty
      have none := (again 0).2
      rw [take_zero,drop_zero,split_end _ (by simp [Fields.Clean])] at none
      rw [take_append_of_le_length inside,drop_append_of_le_length inside,cut]
      simp only [mem_append,mem_cons,true_and,cons.injEq]
      rw [take_clean_iff front,replicate_succ,none]
      grind
    · rw [take_length_add_append,drop_length_add_append,take_succ_cons,drop_succ_cons,split_tab _ front]
      simpa using again m

namespace Event

theorem field_clean (e : Event) : ∀ field ∈ e.fields, ∀ c ∈ field, c ≠ tabChar ∧ c ≠ newline := by
  have number (n : Int) : ∀ c ∈ decimal n, c ≠ tabChar ∧ c ≠ newline := by
    intro c member
    have low := (decimal_range member).1
    constructor <;> rintro rfl <;> exact absurd low (by decide)
  intro field member c inside
  rcases mem_cons.mp member with rfl | member
  · exact number _ c inside
  rcases mem_cons.mp member with rfl | member
  · exact number _ c inside
  have plain := e.fields_clean field member c inside
  simp only [mem_cons,not_or] at plain
  exact ⟨plain.2.1,plain.2.2.1⟩

theorem clean (e : Event) : ∀ field ∈ e.fields, Clean field :=
  fun field member c inside => ⟨(e.field_clean field member c inside).1,rfl⟩

theorem row_cases (e : Event) :
    (e.detail ≠ [] ∧ e.header.length < 2044 ∧
      e.row = e.header ++ cut (room - e.header.length) (tabChar :: e.detail)) ∨
    ((e.detail = [] ∨ 2044 ≤ e.header.length) ∧ e.row = cut room e.header) := by
  have near := boundary_le e.header 3 room
  have size : (cut room e.header).length = min (boundary e.header 3 room) e.header.length := length_take
  have whole : e.header.length < 2044 → cut room e.header = e.header :=
    fun short => cut_of_length_le (by rw [room]; omega)
  dsimp only [row]
  by_cases short : e.header.length < 2044
  · rw [whole short]
    by_cases none : e.detail = []
    · exact .inr ⟨.inl none,by simp [none]⟩
    · exact .inl ⟨none,short,by simp [none,short]⟩
  · refine .inr ⟨.inr (by omega),if_neg ?_⟩
    rw [size]
    rw [room] at near ⊢
    omega

theorem detail_cut (detail : Bytes) (room : 4 ≤ n) : ∃ k, cut n (tabChar :: detail) = tabChar :: detail.take k := by
  have near := (boundary_le (tabChar :: detail) 3 n).2
  obtain ⟨k,some⟩ : ∃ k, boundary (tabChar :: detail) 3 n = k + 1 := ⟨boundary (tabChar :: detail) 3 n - 1,by omega⟩
  exact ⟨k,by rw [cut,some,take_succ_cons]⟩

theorem named_of_short (e : Event) (short : e.header.length < room) : e.Named := by
  rw [Named,boundary_of_length_le (by omega),drop_eq_nil_of_le (by omega)]
  simp

/-- A header that is cut in front of a character has lost a part of a field. -/
theorem short_of_named (e : Event) (named : e.Named) (less : (cut room e.header).length < room) :
    e.header.length < room := by
  rw [cut,length_take] at less
  by_contra long
  have before : boundary e.header 3 room < room := by omega
  obtain ⟨c,there,inside⟩ := continues_of_boundary_lt before
  have dropped : c ∈ e.header.drop (boundary e.header 3 room) := by
    refine mem_of_getElem? (i := room - boundary e.header 3 room) ?_
    rw [getElem?_drop,Nat.add_sub_cancel' (boundary_le _ _ _).1]
    exact there
  rw [named c dropped] at inside
  contradiction

theorem fits_iff (e : Event) : e.Fits ↔ e.row.length < room ∧ e.Named := by
  rcases e.row_cases with ⟨some,short,eq⟩ | ⟨none,eq⟩
  · have less : e.header.length < room := by rw [room]; omega
    rw [Fits,eq,length_append]
    simp only [some,show ¬2044 ≤ e.header.length by omega,false_or,less,true_and,e.named_of_short less,and_true]
    omega
  · have free : e.detail = [] ∨ 2044 ≤ e.header.length ∨
        (cut (room - e.header.length) (tabChar :: e.detail)).length < room - e.header.length := by
      rcases none with none | long
      · exact .inl none
      · exact .inr (.inl long)
    rw [Fits,eq]
    constructor
    · rintro ⟨short,-⟩
      exact ⟨by rwa [cut_of_length_le (Nat.le_of_lt short)],e.named_of_short short⟩
    · rintro ⟨less,named⟩
      exact ⟨e.short_of_named named less,free⟩

theorem recovered_row (e : Event) : Recovered e e.row ↔ e.Named := by
  unfold Recovered
  rcases e.row_cases with ⟨_,short,eq⟩ | ⟨_,eq⟩
  · have named := e.named_of_short (by rw [room]; omega)
    obtain ⟨k,copied⟩ := detail_cut (n := room - e.header.length) e.detail (by rw [room]; omega)
    have back : o9JournalSplit 6 e.row = (e.fields,e.detail.take k) := by
      rw [eq,copied]
      exact split_detail _ _ e.clean _
    rw [back]
    exact ⟨fun _ => named,fun _ => ⟨rfl, take_prefix _ e.detail⟩⟩
  · obtain ⟨none,same⟩ : (o9JournalSplit 6 e.row).2 = [] ∧ ((o9JournalSplit 6 e.row).1 = e.fields ↔ e.Named) :=
      eq ▸ split_cut _ _ e.clean (boundary e.header 3 room)
    rw [none]
    exact ⟨fun both => same.mp both.1,fun named => ⟨same.mpr named, nil_prefix⟩⟩

theorem newline_not_mem_row (e : Event) : newline ∉ e.row := by
  have header : newline ∉ e.header := by
    have each : ∀ field ∈ e.fields, newline ∉ field :=
      fun field there inside => (e.field_clean field there _ inside).2 rfl
    simp only [fields,forall_mem_cons] at each
    simp [Event.header,fields,join,each,show newline ≠ tabChar by decide]
  rcases e.row_cases with ⟨_,_,eq⟩ | ⟨_,eq⟩
  · rw [eq,mem_append]
    rintro (member | member)
    · exact header member
    · rcases mem_cons.mp (mem_of_mem_take member) with tab | member
      · exact absurd tab (by decide)
      · exact e.detail_clean _ member (by simp)
  · exact eq ▸ fun member => header (mem_of_mem_take member)

theorem row_ne_nil (e : Event) : e.row ≠ [] := by
  have header : e.header ≠ [] := by simp [header,fields,join]
  rcases e.row_cases with ⟨_,_,eq⟩ | ⟨_,eq⟩
  · simp [eq,header]
  · have near := (boundary_le e.header 3 room).2
    rw [eq,cut,ne_eq,take_eq_nil_iff]
    rw [room] at near ⊢
    simp only [header,or_false]
    omega

end Event

open Event (room)

theorem journal_cons (e : Event) (rest : List Event) :
    journal (e :: rest) = (if e.row.length < room then e.row ++ [newline] else e.row) ++ journal rest := by
  have start (events : List Event) (file : Bytes) :
      events.foldl (fun file e => e.o9AppendEvent file) file = file ++ journal events := by
    induction events generalizing file with
    | nil => simp [journal]
    | cons e rest ih =>
      rw [journal,foldl_cons,foldl_cons,ih,ih (e.o9AppendEvent [])]
      simp [Event.o9AppendEvent]
  rw [journal,foldl_cons,start]
  simp [Event.o9AppendEvent]

theorem read_ended (ends : e.row.length < room) (rest : List Event) :
    Lines.read newline [] (journal (e :: rest)) = e.row :: Lines.read newline [] (journal rest) := by
  rw [journal_cons,if_pos ends,append_assoc,read_append e.newline_not_mem_row]
  simp [Lines.read]

theorem read_last (full : ¬e.row.length < room) : Lines.read newline [] (journal [e]) = [e.row] := by
  rw [journal_cons,if_neg full,read_append e.newline_not_mem_row]
  simp [journal,Lines.read,e.row_ne_nil]

/-- A row without its newline takes the line of the next event. -/
theorem read_glued (full : ¬e.row.length < room) (more : rest ≠ []) :
    (read newline [] (journal (e :: rest))).length = (read newline [] (journal rest)).length := by
  obtain ⟨next,later,rfl⟩ := exists_cons_of_ne_nil more
  have some : journal (next :: later) ≠ [] := by
    rw [journal_cons]
    split <;> simp [next.row_ne_nil]
  rw [journal_cons e,if_neg full,read_append e.newline_not_mem_row,length_read _ some]

theorem length_read_le (events : List Event) : (read newline [] (journal events)).length ≤ events.length := by
  induction events with
  | nil => simp [journal,Lines.read]
  | cons e rest =>
    rw [length_cons]
    by_cases ends : e.row.length < room
    · rw [read_ended ends,length_cons]
      omega
    · cases rest with
      | nil => simp [read_last ends]
      | cons =>
        rw [read_glued ends (by simp)]
        omega

theorem not_readable_glued (full : ¬e.row.length < room) (more : rest ≠ []) : ¬Readable (e :: rest) := by
  intro readable
  have count := readable.length_eq
  rw [read_glued full more,length_cons] at count
  have few := length_read_le rest
  omega

/-- A journal is read back just when every event but the last leaves room for its newline and the last one for its
fields. -/
theorem readable_iff (events : List Event) :
    Readable events ↔ (∀ e ∈ events.dropLast, e.Fits) ∧ ∀ e ∈ events.getLast?, e.Named := by
  induction events with
  | nil => simp [Readable,journal,Lines.read]
  | cons e rest ih =>
    cases rest with
    | nil =>
      have single : Readable [e] ↔ Recovered e e.row := by
        by_cases ends : e.row.length < room
        · simp only [Readable,read_ended ends,forall₂_cons]
          simp [journal,Lines.read]
        · simp [Readable,read_last ends]
      simp [single,e.recovered_row]
    | cons next later =>
      rw [dropLast_cons_cons,getLast?_cons_cons,forall_mem_cons,and_assoc,← ih,e.fits_iff]
      by_cases ends : e.row.length < room
      · simp [Readable,read_ended ends,forall₂_cons,ends,e.recovered_row]
      · exact iff_of_false (not_readable_glued ends (by simp)) fun both => ends both.1.1

theorem long_fields_clean : ∀ field ∈ [replicate 1010 119,ascii "worker_heartbeat",ascii "worker",replicate 1010 119],
    ∀ c ∈ field, c ∉ [0,tabChar,newline] := by
  have name : ∀ c ∈ replicate 1010 119, c ∉ [0,tabChar,newline] := by
    intro c member
    rw [eq_of_mem_replicate member]
    decide
  simp only [forall_mem_cons]
  exact ⟨name,by decide +kernel,by decide +kernel,name,by simp⟩

theorem long_detail_clean : ∀ c ∈ ascii "status=idle", c ∉ [0,newline] := by decide +kernel

/-- A heartbeat of an idle queue worker whose name has 1010 bytes. -/
def longBeat (seq : Int) : Event where
  seq := seq
  ms := 1700000000000
  origin := replicate 1010 119
  type := ascii "worker_heartbeat"
  kind := ascii "worker"
  id := replicate 1010 119
  detail := ascii "status=idle"
  fields_clean := long_fields_clean
  detail_clean := long_detail_clean

theorem long_beats_glued : ¬Readable [longBeat 2,longBeat 3] := by
  have plain : ∀ c ∈ (longBeat 2).header, continues c = false := by
    have all : ((longBeat 2).header.all fun c => !continues c) = true := by decide +kernel
    simpa using all
  refine not_readable_glued ?_ (by simp)
  have words : (ascii "worker_heartbeat").length = 16 ∧ (ascii "worker").length = 6 := by simp [ascii]
  have long : room ≤ (longBeat 2).header.length := by
    simp only [Event.header,Event.fields,join,longBeat,length_append,length_cons,length_replicate,words,Event.room]
    omega
  rcases (longBeat 2).row_cases with ⟨_,short,_⟩ | ⟨_,eq⟩
  · rw [room] at long
    omega
  · rw [eq,cut_of_plain plain,length_take]
    omega

end Objective9c.Grid.JournalText
