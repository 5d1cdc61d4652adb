import Mathlib.Data.List.Basic
/-!
# Delimited text

Records of fields as text, written with as few quotes as possible, and read
back line by line with a state machine. What is written reads back
(`read_write`), whatever the fields hold: quotes, delimiters, line ends.
-/

namespace Lib.Csv

def newline (c : Char) : Bool := c = '\r' || c = '\n'

structure Dialect where
  delimiter : Char
  quote : Char
  distinct : delimiter ≠ quote
  delimiter_line : newline delimiter = false
  quote_line : newline quote = false

/-! ## Writing -/

section
variable (d : Dialect)

/-- Whether a field with the character needs quotes. -/
def Dialect.special (c : Char) : Bool := c = d.delimiter || c = d.quote || newline c

def doubleQuotes (f : List Char) : List Char := f.flatMap fun c => if c = d.quote then [c, c] else [c]

def quoted (f : List Char) : List Char := d.quote :: (doubleQuotes d f ++ [d.quote])

def writeField (f : List Char) : List Char := if f.any d.special then quoted d f else f

def writeFields : List (List Char) → List Char
  | [] => []
  | [f] => writeField d f
  | f :: fs => writeField d f ++ d.delimiter :: writeFields fs

/-- A record and its line end; a single empty field is quoted. -/
def writeRecord (r : List (List Char)) : List Char := (if r = [[]] then quoted d [] else writeFields d r) ++ ['\r', '\n']

def write (rs : List (List (List Char))) : List Char := rs.flatMap (writeRecord d)

end

/-! ## Reading -/

/-- What the reader sees: the characters, and the end of each line. -/
inductive Token where
  | char (c : Char)
  | lineEnd

/-- The lines, each with its end: a carriage return and a line feed end a line together. -/
def tokens : List Char → List Token
  | [] => []
  | c :: s =>
    if c = '\r' ∧ s.head? = some '\n' then .char c :: tokens s
    else if newline c ∨ s = [] then .char c :: .lineEnd :: tokens s
    else .char c :: tokens s

inductive State where
  | startRecord | startField | inField | inQuoted
  /-- Behind a quote of a quoted field: the last, or the first of two. -/
  | quoteInQuoted
  | eatLine
deriving DecidableEq

structure Reader where
  state : State := .startRecord
  field : List Char := []
  fields : List (List Char) := []
  records : List (List (List Char)) := []

inductive ReadError where
  | fieldTooLong | newlineInUnquoted
deriving DecidableEq

namespace Reader

variable (d : Dialect) (limit : ℕ)

def addChar (r : Reader) (c : Char) (state : State) : Except ReadError Reader :=
  if r.field.length < limit then .ok { r with field := r.field ++ [c], state := state } else .error .fieldTooLong

def saveField (r : Reader) (state : State) : Reader := { r with fields := r.fields ++ [r.field], field := [], state := state }

/-- At the end of a line the record is over, unless a quote is open. -/
def saveRecord (r : Reader) : Reader := { r with records := r.records ++ [r.fields], fields := [], state := .startRecord }

/-- A character in an unquoted field, or behind the last quote of a quoted one. -/
def plain (r : Reader) (c : Char) : Except ReadError Reader :=
  if newline c then .ok (r.saveField .eatLine)
  else if c = d.delimiter then .ok (r.saveField .startField)
  else r.addChar limit c .inField

def firstOfField (r : Reader) (c : Char) : Except ReadError Reader :=
  if c = d.quote then .ok { r with state := .inQuoted } else r.plain d limit c

def step (r : Reader) : Token → Except ReadError Reader
  | .char c =>
    match r.state with
    | .startRecord => if newline c then .ok { r with state := .eatLine } else r.firstOfField d limit c
    | .startField => r.firstOfField d limit c
    | .inField => r.plain d limit c
    | .inQuoted => if c = d.quote then .ok { r with state := .quoteInQuoted } else r.addChar limit c .inQuoted
    | .quoteInQuoted => if c = d.quote then r.addChar limit c .inQuoted else r.plain d limit c
    | .eatLine => if newline c then .ok r else .error .newlineInUnquoted
  | .lineEnd =>
    match r.state with
    | .startRecord | .eatLine => .ok r.saveRecord
    | .startField | .inField | .quoteInQuoted => .ok (r.saveField .startRecord).saveRecord
    | .inQuoted => .ok r

def feed (r : Reader) : List Token → Except ReadError Reader
  | [] => .ok r
  | t :: ts => (r.step d limit t).bind fun r => feed r ts

def run (r : Reader) (s : List Char) : Except ReadError Reader := r.feed d limit (tokens s)

/-- At the end of the text, with a quote still open: the record is what there is. -/
def finish (r : Reader) : List (List (List Char)) :=
  if r.field ≠ [] ∨ r.state = .inQuoted then r.records ++ [r.fields ++ [r.field]] else r.records

end Reader

/-- The records of a text. -/
def read (d : Dialect) (limit : ℕ) (s : List Char) : Except ReadError (List (List (List Char))) :=
  ((Reader.run d limit {}) s).map Reader.finish

/-! ## What is written reads back -/

namespace Reader

variable {d : Dialect} {limit : ℕ} {r r' : Reader} {c : Char} {s : List Char}

theorem feed_cons {t : Token} {ts : List Token} (h : r.step d limit t = .ok r') : r.feed d limit (t :: ts) = r'.feed d limit ts := by
  rw [feed, h]
  rfl

/-- A character that does not end a line. -/
theorem run_char (hc : newline c = false) (hs : s ≠ []) (h : r.step d limit (.char c) = .ok r') :
    r.run d limit (c :: s) = r'.run d limit s := by
  have hr : ¬ (c = '\r' ∧ s.head? = some '\n') := by
    rintro ⟨rfl, -⟩
    cases hc
  have hl : ¬ (newline c = true ∨ s = []) := by
    rw [hc]
    exact not_or.2 ⟨Bool.false_ne_true, hs⟩
  rw [run, tokens, if_neg hr, if_neg hl]
  exact feed_cons h

/-- Within quotes the ends of the lines are nothing. -/
theorem run_quoted_char (hr : r.state = .inQuoted) (hlen : r.field.length < limit) (hc : c ≠ d.quote) :
    r.run d limit (c :: s) = Reader.run d limit { r with field := r.field ++ [c] } s := by
  have hstep : r.step d limit (.char c) = .ok { r with field := r.field ++ [c] } := by
    simp only [step, hr, if_neg hc, addChar, if_pos hlen]
  have hend : Reader.step d limit { r with field := r.field ++ [c] } .lineEnd = .ok { r with field := r.field ++ [c] } := by
    simp only [step, hr]
  rw [run, tokens]
  split_ifs with hcr hl
  · exact feed_cons hstep
  · rw [feed_cons hstep]
    exact feed_cons hend
  · exact feed_cons hstep

theorem run_doubled {f : List Char} (hr : r.state = .inQuoted) (hlen : r.field.length + f.length ≤ limit) (hs : s ≠ []) :
    r.run d limit (doubleQuotes d f ++ s) = Reader.run d limit { r with field := r.field ++ f } s := by
  induction f generalizing r with
  | nil =>
    rw [List.append_nil]
    rfl
  | cons c f ih =>
    rw [List.length_cons] at hlen
    have hlt : r.field.length < limit := by omega
    have hrest : doubleQuotes d f ++ s ≠ [] := by simp [hs]
    have hlonger : (r.field ++ [c]).length + f.length ≤ limit := by
      rw [List.length_append, List.length_singleton]
      omega
    rw [doubleQuotes, List.flatMap_cons, ← doubleQuotes, List.append_assoc]
    by_cases hc : c = d.quote
    · -- The first quote leaves the quoted text, the second one comes back.
      have hfirst : r.step d limit (.char c) = .ok { r with state := .quoteInQuoted } := by
        simp only [step, hr, if_pos hc]
      have hsecond : Reader.step d limit { r with state := .quoteInQuoted } (.char c) =
          .ok { r with field := r.field ++ [c], state := .inQuoted } := by
        simp only [step, if_pos hc, addChar, if_pos hlt]
      have hline : newline c = false := hc ▸ d.quote_line
      rw [if_pos hc]
      show r.run d limit (c :: c :: (doubleQuotes d f ++ s)) = _
      rw [run_char hline (List.cons_ne_nil _ _) hfirst, run_char hline hrest hsecond]
      rw [ih (r := { r with field := r.field ++ [c], state := .inQuoted }) rfl hlonger]
      simp only [List.append_assoc, List.singleton_append, hr]
    · rw [if_neg hc]
      show r.run d limit (c :: (doubleQuotes d f ++ s)) = _
      rw [run_quoted_char hr hlt hc, ih (r := { r with field := r.field ++ [c] }) hr hlonger]
      simp only [List.append_assoc, List.singleton_append]

/-- Before a field. -/
structure Before (r : Reader) : Prop where
  state : r.state = .startRecord ∨ r.state = .startField
  field : r.field = []

theorem Before.step (h : r.Before) (hc : newline c = false) : r.step d limit (.char c) = r.firstOfField d limit c := by
  rcases h.state with hr | hr
  · simp only [Reader.step, hr, hc, Bool.false_eq_true, if_false]
  · simp only [Reader.step, hr]

theorem run_quoted {f : List Char} (h : r.Before) (hlen : f.length ≤ limit) (hs : s ≠ []) :
    r.run d limit (quoted d f ++ s) = Reader.run d limit { r with field := f, state := .quoteInQuoted } s := by
  have hopen : r.step d limit (.char d.quote) = .ok { r with state := .inQuoted } := by
    rw [h.step d.quote_line, firstOfField, if_pos rfl]
  have hclose : Reader.step d limit { r with field := f, state := .inQuoted } (.char d.quote) =
      .ok { r with field := f, state := .quoteInQuoted } := by
    simp only [Reader.step, if_true]
  show r.run d limit (d.quote :: (doubleQuotes d f ++ [d.quote] ++ s)) = _
  rw [run_char d.quote_line (by simp) hopen, List.append_assoc, run_doubled rfl (by simpa [h.field] using hlen) (by simp)]
  dsimp only
  rw [h.field, List.nil_append]
  exact run_char d.quote_line hs hclose

theorem plain_of_not_special (hc : d.special c = false) (hlen : r.field.length < limit) :
    r.plain d limit c = .ok { r with field := r.field ++ [c], state := .inField } := by
  simp only [Dialect.special, Bool.or_eq_false_iff, decide_eq_false_iff_not] at hc
  obtain ⟨⟨hdelimiter, -⟩, hline⟩ := hc
  simp only [plain, hline, Bool.false_eq_true, if_false, if_neg hdelimiter, addChar, if_pos hlen]

theorem run_unquoted {f : List Char} (hr : r.state = .inField) (hf : ∀ c ∈ f, d.special c = false)
    (hlen : r.field.length + f.length ≤ limit) (hs : s ≠ []) :
    r.run d limit (f ++ s) = Reader.run d limit { r with field := r.field ++ f } s := by
  induction f generalizing r with
  | nil =>
    rw [List.append_nil]
    rfl
  | cons c f ih =>
    rw [List.length_cons] at hlen
    have hspecial := hf c List.mem_cons_self
    have hline : newline c = false := by
      simp only [Dialect.special, Bool.or_eq_false_iff] at hspecial
      exact hspecial.2
    have hstep : r.step d limit (.char c) = .ok { r with field := r.field ++ [c], state := .inField } := by
      simp only [step, hr]
      exact plain_of_not_special hspecial (by omega)
    have hlonger : (r.field ++ [c]).length + f.length ≤ limit := by
      rw [List.length_append, List.length_singleton]
      omega
    rw [List.cons_append, run_char hline (by simp [hs]) hstep]
    rw [ih (r := { r with field := r.field ++ [c], state := .inField }) rfl (fun c hc => hf c (List.mem_cons_of_mem _ hc)) hlonger]
    simp only [List.append_assoc, List.singleton_append, hr]

/-- Behind the text of a field, which is to be saved. -/
structure Behind (f : List Char) (r r' : Reader) : Prop where
  field : r'.field = f
  fields : r'.fields = r.fields
  records : r'.records = r.records
  state : r'.state = .inField ∨ r'.state = .quoteInQuoted ∨ f = [] ∧ r' = r

theorem run_field {f : List Char} (h : r.Before) (hlen : f.length ≤ limit) (hs : s ≠ []) :
    ∃ r', Behind f r r' ∧ r.run d limit (writeField d f ++ s) = r'.run d limit s := by
  unfold writeField
  split_ifs with hf
  · exact ⟨{ r with field := f, state := .quoteInQuoted }, ⟨rfl, rfl, rfl, .inr (.inl rfl)⟩, run_quoted h hlen hs⟩
  · cases f with
    | nil => exact ⟨r, ⟨h.field, rfl, rfl, .inr (.inr ⟨rfl, rfl⟩)⟩, rfl⟩
    | cons c f =>
      have hall : ∀ x ∈ c :: f, d.special x = false := by
        intro x hx
        by_contra hx'
        exact hf (List.any_eq_true.2 ⟨x, hx, eq_true_of_ne_false hx'⟩)
      have hspecial := hall c List.mem_cons_self
      have hspec := hspecial
      simp only [Dialect.special, Bool.or_eq_false_iff, decide_eq_false_iff_not] at hspec
      obtain ⟨⟨-, hquote⟩, hline⟩ := hspec
      have hstep : r.step d limit (.char c) = .ok { r with field := [c], state := .inField } := by
        rw [h.step hline, firstOfField, if_neg hquote, plain_of_not_special hspecial (by simp [h.field]; simp at hlen; omega), h.field]
        rfl
      refine ⟨{ r with field := c :: f, state := .inField }, ⟨rfl, rfl, rfl, .inl rfl⟩, ?_⟩
      rw [List.cons_append, run_char hline (by simp [hs]) hstep]
      exact run_unquoted rfl (fun x hx => hall x (List.mem_cons_of_mem _ hx)) (by simpa [Nat.add_comm] using hlen) hs

/-- The reader with the fields so far, before the next one. -/
def between (fields : List (List Char)) (records : List (List (List Char))) : Reader :=
  { state := .startField, fields := fields, records := records }

/-- The reader before a record. -/
def fresh (records : List (List (List Char))) : Reader := { records := records }

theorem run_delimiter {f : List Char} (h : r.Before) (hf : Behind f r r') (hs : s ≠ []) :
    r'.run d limit (d.delimiter :: s) = (between (r.fields ++ [f]) r.records).run d limit s := by
  apply run_char d.delimiter_line hs
  have hplain : r'.plain d limit d.delimiter = .ok (r'.saveField .startField) := by
    simp only [plain, d.delimiter_line, Bool.false_eq_true, if_false, if_true]
  have hsaved : r'.saveField .startField = between (r.fields ++ [f]) r.records := by
    rw [saveField, hf.field, hf.fields, hf.records]
    rfl
  rw [← hsaved, ← hplain]
  rcases hf.state with hr | hr | ⟨-, rfl⟩
  · simp only [Reader.step, hr]
  · simp only [Reader.step, hr, if_neg d.distinct]
  · rw [h.step d.delimiter_line, firstOfField, if_neg d.distinct]

theorem quote_ne_return : '\r' ≠ d.quote := by
  intro h
  have hline := d.quote_line
  rw [← h] at hline
  cases hline

/-- The two characters of a line end, and the line end. -/
theorem run_line (h : r.step d limit (.char '\r') = .ok r') (hr : r'.state = .eatLine) :
    r.run d limit ('\r' :: '\n' :: s) = r'.saveRecord.run d limit s := by
  have hfeed : r'.step d limit (.char '\n') = .ok r' := by simp [step, hr, newline]
  have hend : r'.step d limit .lineEnd = .ok r'.saveRecord := by simp only [step, hr]
  have htokens : tokens ('\r' :: '\n' :: s) = .char '\r' :: .char '\n' :: .lineEnd :: tokens s := by
    simp [tokens, newline]
  rw [run, htokens, feed_cons h, feed_cons hfeed, feed_cons hend]
  rfl

theorem run_fieldEnd {f : List Char} (hf : Behind f r r') (hr : r.state = .startField ∨ f ≠ []) :
    r'.run d limit ('\r' :: '\n' :: s) = (fresh (r.records ++ [r.fields ++ [f]])).run d limit s := by
  have hplain : r'.plain d limit '\r' = .ok (r'.saveField .eatLine) := by simp [plain, newline]
  have hstep : r'.step d limit (.char '\r') = .ok (r'.saveField .eatLine) := by
    rw [← hplain]
    rcases hf.state with hs | hs | ⟨hnil, rfl⟩
    · simp only [step, hs]
    · simp only [step, hs, if_neg quote_ne_return]
    · have hs : r'.state = .startField := hr.resolve_right fun hne => hne hnil
      simp only [step, hs, firstOfField, if_neg quote_ne_return]
  rw [run_line hstep rfl]
  simp only [saveField, saveRecord, hf.field, hf.fields, hf.records]
  rfl

theorem before_between (fields : List (List Char)) (records : List (List (List Char))) : (between fields records).Before :=
  ⟨.inr rfl, rfl⟩

theorem before_fresh (records : List (List (List Char))) : (fresh records).Before := ⟨.inl rfl, rfl⟩

/-- The fields of a record, up to the end of its line. -/
theorem run_fields {fs : List (List Char)} (h : r.Before) (hfs : fs ≠ []) (hne : r.state = .startField ∨ fs ≠ [[]])
    (hlen : ∀ f ∈ fs, f.length ≤ limit) :
    r.run d limit (writeFields d fs ++ '\r' :: '\n' :: s) = (fresh (r.records ++ [r.fields ++ fs])).run d limit s := by
  induction fs generalizing r with
  | nil => exact absurd rfl hfs
  | cons f fs ih =>
    have hf := hlen f List.mem_cons_self
    cases fs with
    | nil =>
      obtain ⟨r', hr', hrun⟩ := run_field (d := d) h hf (List.cons_ne_nil '\r' ('\n' :: s))
      rw [writeFields, hrun]
      apply run_fieldEnd hr'
      exact hne.imp_right fun hne hnil => hne (by rw [hnil])
    | cons g fs =>
      obtain ⟨r', hr', hrun⟩ :=
        run_field (d := d) h hf (List.cons_ne_nil d.delimiter (writeFields d (g :: fs) ++ '\r' :: '\n' :: s))
      have hcons : writeFields d (f :: g :: fs) = writeField d f ++ d.delimiter :: writeFields d (g :: fs) := rfl
      rw [hcons, List.append_assoc, List.cons_append, hrun, run_delimiter h hr' (by simp)]
      rw [ih (before_between _ _) (List.cons_ne_nil _ _) (.inl rfl) fun f hf => hlen f (List.mem_cons_of_mem _ hf)]
      simp only [between, List.append_assoc, List.singleton_append]

theorem run_record {records : List (List (List Char))} {fs : List (List Char)} (hlen : ∀ f ∈ fs, f.length ≤ limit) :
    (fresh records).run d limit (writeRecord d fs ++ s) = (fresh (records ++ [fs])).run d limit s := by
  rw [writeRecord, List.append_assoc]
  split_ifs with hempty
  · -- The quotes tell a record of one empty field from an empty line.
    rw [run_quoted (before_fresh records) (Nat.zero_le _) (by simp), hempty]
    exact run_fieldEnd (r := between [] records) (f := []) ⟨rfl, rfl, rfl, .inr (.inl rfl)⟩ (.inl rfl)
  · cases fs with
    | nil =>
      have hline : (fresh records).step d limit (.char '\r') = .ok { fresh records with state := .eatLine } := by
        simp [step, fresh, newline]
      exact run_line hline rfl
    | cons f fs => exact run_fields (before_fresh records) (List.cons_ne_nil _ _) (.inr hempty) hlen

end Reader

/-- What is written reads back, whatever the fields hold, where none is longer than the reader takes. -/
theorem read_write (d : Dialect) (limit : ℕ) (rs : List (List (List Char))) (hlen : ∀ r ∈ rs, ∀ f ∈ r, f.length ≤ limit) :
    read d limit (write d rs) = .ok rs := by
  have hrun : ∀ records, (Reader.fresh records).run d limit (write d rs) = .ok (Reader.fresh (records ++ rs)) := by
    intro records
    induction rs generalizing records with
    | nil =>
      rw [List.append_nil]
      rfl
    | cons r rs ih =>
      rw [write, List.flatMap_cons, ← write, Reader.run_record (hlen r List.mem_cons_self)]
      rw [ih (fun r hr => hlen r (List.mem_cons_of_mem _ hr)), List.append_assoc, List.singleton_append]
  rw [read, show ({} : Reader) = Reader.fresh [] from rfl, hrun]
  rfl

end Lib.Csv
