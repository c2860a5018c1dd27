import Flurbo.Library.Utf16

-- The rows of a CSV body, and what RFC 4180 writes for a table.

namespace Readers.Csv

def quote : CodeUnit := 0x22
def cr : CodeUnit := 0x0D
def lf : CodeUnit := 0x0A
def comma : CodeUnit := 0x2C
def semicolon : CodeUnit := 0x3B
def tab : CodeUnit := 0x09

inductive Failure
  | invalidCsv | tooLarge
  deriving DecidableEq, Repr

abbrev Row := List Utf16

structure Scan where
  rows    : List Row
  row     : Row
  field   : Utf16
  quoted  : Bool
  started : Bool
  deriving DecidableEq

namespace Scan

def start : Scan := ⟨[], [], [], false, false⟩

def write (s : Scan) (c : CodeUnit) : Scan := { s with field := s.field ++ [c] }

def closeField (s : Scan) : Scan := { s with row := s.row ++ [s.field], field := [], started := false }

def closeRow (s : Scan) : Scan :=
  { s with rows := s.rows ++ [s.row ++ [s.field]], row := [], field := [], started := false }

end Scan

-- Two characters are read together if they are a doubled quote in a quoted field, or CR LF outside.
def scan (delimiter : CodeUnit) : Utf16 → Scan → Scan
  | [], s        => s
  | c :: body, s =>
    if s.quoted then
      if c = quote then
        match body with
        | d :: rest =>
          if d = quote then scan delimiter rest (s.write quote)
          else scan delimiter (d :: rest) { s with quoted := false }
        | []        => { s with quoted := false }
      else
        scan delimiter body (s.write c)
    else if c = quote ∧ !s.started then
      scan delimiter body { s with quoted := true, started := true }
    else if c = delimiter then
      scan delimiter body s.closeField
    else if c = cr ∨ c = lf then
      match body with
      | d :: rest =>
        if c = cr ∧ d = lf then scan delimiter rest s.closeRow
        else scan delimiter (d :: rest) s.closeRow
      | []        => s.closeRow
    else
      scan delimiter body { s.write c with started := true }

def parseCsv (input : Utf16) (delimiter : CodeUnit) : Except Failure (List Row) :=
  let s := scan delimiter input.dropMark .start
  if s.quoted then .error .invalidCsv
  else
    let rows := if s.field ≠ [] ∨ s.row ≠ [] then s.rows ++ [s.row ++ [s.field]] else s.rows
    if rows.length > 200000 then .error .tooLarge
    else .ok (rows.filter fun r => r.length > 1 || r.head? ≠ some [])

section Encoding

variable (delimiter : CodeUnit)

-- A field as it is written: within quotes that double the ones it has, or bare.
structure Cell where
  text   : Utf16
  quotes : Bool
  deriving DecidableEq

inductive LineEnd
  | cr | lf | crlf
  deriving DecidableEq

def LineEnd.text : LineEnd → Utf16
  | .cr   => [Csv.cr]
  | .lf   => [Csv.lf]
  | .crlf => [Csv.cr, Csv.lf]

def escape (text : Utf16) : Utf16 := text.flatMap fun c => if c = quote then [quote, quote] else [c]

def special (c : CodeUnit) : Prop := c = delimiter ∨ c = quote ∨ c = cr ∨ c = lf

instance decidableSpecial (c : CodeUnit) : Decidable (special delimiter c) :=
  inferInstanceAs (Decidable (c = delimiter ∨ c = quote ∨ c = cr ∨ c = lf))

-- Only a field without special characters may be written bare.
def Cell.Valid (cell : Cell) : Prop := cell.quotes = false → ∀ c ∈ cell.text, ¬ special delimiter c

def Cell.encode (cell : Cell) : Utf16 :=
  if cell.quotes then quote :: (escape cell.text ++ [quote]) else cell.text

def encodeRow : List Cell → Utf16
  | []            => []
  | [cell]        => cell.encode
  | cell :: cells => cell.encode ++ delimiter :: encodeRow cells

-- The last row has no line end if `final` is not set.
def encodeRows (final : Bool) : List (List Cell × LineEnd) → Utf16
  | []               => []
  | [(row, e)]       => encodeRow delimiter row ++ if final then e.text else []
  | (row, e) :: rows => encodeRow delimiter row ++ e.text ++ encodeRows final rows

def encode (mark final : Bool) (rows : List (List Cell × LineEnd)) : Utf16 :=
  (if mark then [Utf16.byteOrderMark] else []) ++ encodeRows delimiter final rows

end Encoding

-- The delimiters that a rule can choose.
def Delimiter (d : CodeUnit) : Prop := d = comma ∨ d = semicolon ∨ d = tab

section Decoding

variable {d c : CodeUnit} {rest text : Utf16} {s : Scan} {cell : Cell} {cells row : List Cell}
variable {rows : List (List Cell × LineEnd)} {acc : List Row} {r : Row}

theorem scan_cons : scan d (c :: rest) s =
    if s.quoted then
      if c = quote then
        match rest with
        | d' :: rest =>
          if d' = quote then scan d rest (s.write quote)
          else scan d (d' :: rest) { s with quoted := false }
        | []         => { s with quoted := false }
      else
        scan d rest (s.write c)
    else if c = quote ∧ !s.started then
      scan d rest { s with quoted := true, started := true }
    else if c = d then
      scan d rest s.closeField
    else if c = cr ∨ c = lf then
      match rest with
      | d' :: rest => if c = cr ∧ d' = lf then scan d rest s.closeRow else scan d (d' :: rest) s.closeRow
      | []         => s.closeRow
    else
      scan d rest { s.write c with started := true } := by
  rw [scan.eq_def]
  rfl

theorem Delimiter.ne_quote (h : Delimiter d) : d ≠ quote := by
  rcases h with rfl | rfl | rfl <;> decide

theorem scan_delimiter (h : Delimiter d) (hq : s.quoted = false) :
    scan d (d :: rest) s = scan d rest s.closeField := by
  rw [scan_cons, hq, if_neg Bool.false_ne_true, if_neg (fun hd => h.ne_quote hd.left), if_pos rfl]

theorem scan_write (hc : ¬ special d c) (hq : s.quoted = false) :
    scan d (c :: rest) s = scan d rest { s.write c with started := true } := by
  simp only [special, not_or] at hc
  rw [scan_cons, hq, if_neg Bool.false_ne_true, if_neg (fun h => hc.2.1 h.left), if_neg hc.1,
    if_neg (not_or.mpr hc.2.2)]

theorem scan_lineEnd (h : Delimiter d) (e : LineEnd) (hq : s.quoted = false)
    (hr : e = .cr → rest.head? ≠ some lf) : scan d (e.text ++ rest) s = scan d rest s.closeRow := by
  have hcr : cr ≠ quote ∧ cr ≠ d := by rcases h with rfl | rfl | rfl <;> decide
  have hlf : lf ≠ quote ∧ lf ≠ d := by rcases h with rfl | rfl | rfl <;> decide
  cases e
  case cr =>
    rw [LineEnd.text, List.singleton_append, scan_cons, hq, if_neg Bool.false_ne_true,
      if_neg (fun hc => hcr.1 hc.left), if_neg hcr.2, if_pos (.inl rfl)]
    cases rest
    case nil => rw [scan]
    case cons c rest =>
      have hc : c ≠ lf := fun hc => hr rfl (by rw [hc]; rfl)
      exact if_neg fun hd => hc hd.right
  case lf =>
    rw [LineEnd.text, List.singleton_append, scan_cons, hq, if_neg Bool.false_ne_true,
      if_neg (fun hc => hlf.1 hc.left), if_neg hlf.2, if_pos (.inr rfl)]
    cases rest
    case nil         => rw [scan]
    case cons c rest => exact if_neg fun hd => absurd hd.left (by decide)
  case crlf =>
    rw [LineEnd.text, List.cons_append, List.singleton_append, scan_cons, hq, if_neg Bool.false_ne_true,
      if_neg (fun hc => hcr.1 hc.left), if_neg hcr.2, if_pos (.inl rfl)]
    exact if_pos ⟨rfl, rfl⟩

theorem scan_bare (ht : ∀ c ∈ text, ¬ special d c) (hq : s.quoted = false) :
    ∃ b, scan d (text ++ rest) s = scan d rest { s with field := s.field ++ text, started := b } := by
  induction text generalizing s
  case nil          => exact ⟨s.started, by rw [List.nil_append, List.append_nil]⟩
  case cons c t hi =>
    rw [List.cons_append, scan_write (ht c (by simp)) hq]
    obtain ⟨b, hb⟩ := @hi { s.write c with started := true } (fun c hc => ht c (by simp [hc])) hq
    refine ⟨b, hb.trans ?_⟩
    rw [Scan.write, List.append_assoc, List.singleton_append]

-- Within quotes everything is kept, and a doubled quote is one.
theorem scan_escape (hq : s.quoted = true) :
    scan d (escape text ++ rest) s = scan d rest { s with field := s.field ++ text } := by
  induction text generalizing s
  case nil        => rw [escape, List.flatMap_nil, List.nil_append, List.append_nil]
  case cons c t hi =>
    have hw : scan d (escape (c :: t) ++ rest) s = scan d (escape t ++ rest) (s.write c) := by
      rw [escape, List.flatMap_cons, List.append_assoc]
      split
      case isTrue hc =>
        rw [List.cons_append, List.singleton_append, scan_cons, hq, if_pos rfl, if_pos rfl, hc]
        exact if_pos rfl
      case isFalse hc =>
        rw [List.singleton_append, scan_cons, hq, if_pos rfl, if_neg hc]
        rfl
    rw [hw, hi (s := s.write c) hq, Scan.write, List.append_assoc, List.singleton_append]

theorem scan_close (hq : s.quoted = true) (hr : rest.head? ≠ some quote) :
    scan d (quote :: rest) s = scan d rest { s with quoted := false } := by
  rw [scan_cons, hq, if_pos rfl, if_pos rfl]
  cases rest
  case nil         => rw [scan]
  case cons c rest => exact if_neg fun hc => hr (by rw [hc]; rfl)

theorem scan_open (hq : s.quoted = false) (hs : s.started = false) :
    scan d (quote :: rest) s = scan d rest { s with quoted := true, started := true } := by
  rw [scan_cons, hq, if_neg Bool.false_ne_true, if_pos ⟨rfl, by rw [hs]; rfl⟩]

theorem scan_cell (hc : cell.Valid d) (hr : rest.head? ≠ some quote) :
    ∃ b, scan d (cell.encode ++ rest) ⟨acc, r, [], false, false⟩ =
      scan d rest ⟨acc, r, cell.text, false, b⟩ := by
  rw [Cell.encode]
  cases hq : cell.quotes
  case false => exact scan_bare (hc hq) rfl
  case true  =>
    refine ⟨true, ?_⟩
    rw [if_pos rfl, List.cons_append, scan_open rfl rfl, List.append_assoc, scan_escape rfl,
      List.singleton_append, scan_close rfl hr]
    rfl

-- A row leaves its last field open.
theorem scan_row (h : Delimiter d) (hn : row ≠ []) (hv : ∀ cell ∈ row, cell.Valid d)
    (hr : rest.head? ≠ some quote) :
    ∃ r' field b, scan d (encodeRow d row ++ rest) ⟨acc, r, [], false, false⟩ =
        scan d rest ⟨acc, r', field, false, b⟩ ∧
      r' ++ [field] = r ++ row.map (·.text) := by
  induction row generalizing r
  case nil             => contradiction
  case cons cell row hi =>
    cases row
    case nil =>
      obtain ⟨b, hb⟩ := @scan_cell d rest cell acc r (hv cell (by simp)) hr
      exact ⟨r, cell.text, b, hb, rfl⟩
    case cons next row =>
      have hd : (d :: (encodeRow d (next :: row) ++ rest)).head? ≠ some quote :=
        fun hd => h.ne_quote (Option.some.inj hd)
      obtain ⟨b, hb⟩ := @scan_cell d _ cell acc r (hv cell (by simp)) hd
      obtain ⟨r', field, b', hs, he⟩ := @hi (r ++ [cell.text]) (by simp) fun c hc => hv c (by simp [hc])
      refine ⟨r', field, b', ?_, ?_⟩
      · rw [encodeRow, List.append_assoc, List.cons_append, hb, scan_delimiter h rfl]
        · exact hs
        · simp
      · rw [he, List.append_assoc]
        rfl

-- A blank row, which is not kept, could not be told from the end of the one before.
def Blank (row : List Cell) : Prop := row.map (·.text) = [[]]

def ValidRow (d : CodeUnit) (row : List Cell) : Prop :=
  row ≠ [] ∧ ¬ Blank row ∧ ∀ cell ∈ row, cell.Valid d

-- What a row begins with.
theorem encodeRow_head (h : ValidRow d row) : ∃ u, (encodeRow d row ++ rest).head? = some u ∧
    (u = quote ∨ u = d ∨ ∃ cell ∈ row.head?, cell.quotes = false ∧ cell.text.head? = some u) := by
  have hn := h.1
  have hb := h.2.1
  clear h
  cases row
  case nil           => contradiction
  case cons cell row =>
    have hcell (tail : Utf16) (ht : cell.text = [] → cell.quotes = false → tail.head? = some d) :
        ∃ u, (cell.encode ++ tail).head? = some u ∧ (u = quote ∨ u = d ∨
          ∃ c ∈ (cell :: row).head?, c.quotes = false ∧ c.text.head? = some u) := by
      rw [Cell.encode]
      cases hq : cell.quotes
      case true  => exact ⟨quote, rfl, .inl rfl⟩
      case false =>
        cases hu : cell.text
        case nil      => exact ⟨d, ht hu hq, .inr (.inl rfl)⟩
        case cons u t => exact ⟨u, rfl, .inr (.inr ⟨cell, rfl, hq, by rw [hu]; rfl⟩)⟩
    cases row
    case nil           =>
      rw [encodeRow]
      exact hcell rest fun ht => absurd (by rw [Blank, List.map_singleton, ht]) hb
    case cons next row =>
      rw [encodeRow, List.append_assoc]
      · exact hcell _ fun _ _ => rfl
      · simp

theorem encodeRow_head_ne (hd : Delimiter d) (h : ValidRow d row) :
    (encodeRow d row ++ rest).head? ≠ some lf := by
  obtain ⟨u, hu, hc⟩ := @encodeRow_head d rest row h
  rw [hu]
  intro he
  obtain rfl : u = lf := Option.some.inj he
  rcases hc with hq | rfl | ⟨cell, hm, hq, ht⟩
  · exact absurd hq (by decide)
  · rcases hd with hd | hd | hd <;> exact absurd hd (by decide)
  · exact h.2.2 cell (List.mem_of_mem_head? hm) hq lf (List.mem_of_mem_head? ht) (.inr (.inr (.inr rfl)))

theorem encodeRow_mark_ne (hd : Delimiter d) (h : ValidRow d row)
    (hm : ∀ cell ∈ row.head?, cell.text.head? ≠ some Utf16.byteOrderMark) :
    (encodeRow d row ++ rest).head? ≠ some Utf16.byteOrderMark := by
  obtain ⟨u, hu, hc⟩ := @encodeRow_head d rest row h
  rw [hu]
  intro he
  obtain rfl : u = Utf16.byteOrderMark := Option.some.inj he
  rcases hc with hq | rfl | ⟨cell, hc, _, ht⟩
  · exact absurd hq (by decide)
  · rcases hd with hd | hd | hd <;> exact absurd hd (by decide)
  · exact hm cell hc ht

-- What rows begin with, their first row does.
theorem encodeRows_cons {final : Bool} {e : LineEnd} : ∃ rest,
    encodeRows d final ((row, e) :: rows) = encodeRow d row ++ rest := by
  cases rows
  case nil            => exact ⟨_, by rw [encodeRows]⟩
  case cons next rows => exact ⟨_, by rw [encodeRows, List.append_assoc]; simp⟩

theorem lineEnd_head_ne (e : LineEnd) : (e.text ++ rest).head? ≠ some quote := by
  cases e <;> exact fun h => absurd (Option.some.inj h) (by decide)

-- A row with its line end is closed.
theorem scan_closed (hd : Delimiter d) (e : LineEnd) (h : ValidRow d row) (hr : rest.head? ≠ some lf) :
    scan d (encodeRow d row ++ (e.text ++ rest)) ⟨acc, [], [], false, false⟩ =
      scan d rest ⟨acc ++ [row.map (·.text)], [], [], false, false⟩ := by
  obtain ⟨r', field, b, hs, he⟩ := @scan_row d (e.text ++ rest) row acc [] hd h.1 h.2.2 (lineEnd_head_ne e)
  rw [hs, scan_lineEnd hd e rfl fun _ => hr, Scan.closeRow, he, List.nil_append]

-- The rows that the end of the input closes.
def Scan.table (s : Scan) : List Row :=
  if s.field ≠ [] ∨ s.row ≠ [] then s.rows ++ [s.row ++ [s.field]] else s.rows

theorem scan_rows {final : Bool} (hd : Delimiter d) (h : ∀ r ∈ rows, ValidRow d r.1) :
    ∃ s, scan d (encodeRows d final rows) ⟨acc, [], [], false, false⟩ = s ∧ s.quoted = false ∧
      s.table = acc ++ rows.map fun r => r.1.map (·.text) := by
  induction rows generalizing acc
  case nil => exact ⟨_, by rw [encodeRows, scan], rfl, by simp [Scan.table]⟩
  case cons r rows hi =>
    have ⟨row, e⟩ := r
    have hrow : ValidRow d row := h (row, e) (by simp)
    cases rows
    case nil =>
      rw [encodeRows]
      cases final
      case true  =>
        have hs := @scan_closed d [] row acc hd e hrow (by simp)
        rw [List.append_nil] at hs
        rw [if_pos rfl, hs, scan]
        exact ⟨_, rfl, rfl, by simp [Scan.table]⟩
      case false =>
        obtain ⟨r', field, b, hs, he⟩ := @scan_row d [] row acc [] hd hrow.1 hrow.2.2 (by simp)
        rw [if_neg Bool.false_ne_true, hs, scan]
        refine ⟨_, rfl, rfl, ?_⟩
        have hopen : field ≠ [] ∨ r' ≠ [] := by
          by_contra hc
          simp only [not_or, not_not] at hc
          rw [hc.1, hc.2] at he
          exact hrow.2.1 he.symm
        rw [Scan.table, if_pos hopen, he]
        rfl
    case cons next rows =>
      have hhead : (encodeRows d final (next :: rows)).head? ≠ some lf := by
        obtain ⟨tail, ht⟩ := @encodeRows_cons d next.1 rows final next.2
        rw [ht]
        exact encodeRow_head_ne hd (h next (by simp))
      rw [encodeRows, List.append_assoc, scan_closed hd e hrow hhead]
      · obtain ⟨s, hs, hq, ht⟩ := @hi (acc ++ [row.map (·.text)]) fun r hr => h r (by simp [hr])
        exact ⟨s, hs, hq, by rw [ht, List.append_assoc]; rfl⟩
      · simp

-- The first cell does not begin with what would be read as a mark.
def Unmarked (cells : List Cell) : Prop :=
  ∀ cell ∈ cells.head?, cell.text.head? ≠ some Utf16.byteOrderMark

theorem dropMark_encode {final mark : Bool} (hd : Delimiter d) (h : ∀ r ∈ rows, ValidRow d r.1)
    (hm : ∀ r ∈ rows.head?, Unmarked r.1) :
    (encode d mark final rows).dropMark = encodeRows d final rows := by
  cases mark
  case true  => exact Utf16.dropMark_cons _
  case false =>
    refine Utf16.dropMark_of_ne ?_
    cases rows
    case nil         => exact fun he => nomatch he
    case cons r rows =>
      obtain ⟨tail, ht⟩ := @encodeRows_cons d r.1 rows final r.2
      rw [encode, if_neg Bool.false_ne_true, List.nil_append, ht]
      exact encodeRow_mark_ne hd (h r (by simp)) (hm r rfl)

-- Decoding undoes encoding, whichever fields are quoted and whichever line ends are written.
theorem parseCsv_encode (hd : Delimiter d) (mark final : Bool) (h : ∀ r ∈ rows, ValidRow d r.1)
    (hm : ∀ r ∈ rows.head?, Unmarked r.1) (hl : rows.length ≤ 200000) :
    parseCsv (encode d mark final rows) d = .ok (rows.map fun r => r.1.map (·.text)) := by
  obtain ⟨s, hs, hq, ht⟩ := @scan_rows d rows [] final hd h
  rw [List.nil_append, Scan.table] at ht
  have hkeep : (rows.map fun r => r.1.map (·.text)).filter
      (fun r => r.length > 1 || r.head? ≠ some []) = rows.map fun r => r.1.map (·.text) := by
    refine List.filter_eq_self.mpr fun r hr => ?_
    obtain ⟨⟨row, e⟩, hmem, rfl⟩ := List.mem_map.mp hr
    have hn : row ≠ [] := (h _ hmem).1
    have hb : ¬ Blank row := (h _ hmem).2.1
    clear hmem hr
    cases row
    case nil           => contradiction
    case cons cell row =>
      cases row
      case nil    =>
        have hne : cell.text ≠ [] := fun ht => hb (by rw [Blank, List.map_singleton, ht])
        simp [hne]
      case cons   => simp
  rw [parseCsv, dropMark_encode hd h hm, Scan.start, hs, hq, if_neg Bool.false_ne_true]
  change (if s.table.length > 200000 then _ else _) = _
  rw [Scan.table, ht, List.length_map, if_neg (Nat.not_lt.mpr hl), hkeep]

-- Rows with their line ends, fields with their delimiters, and then a field whose quote stays open.
def encodeOpen (d : CodeUnit) (mark : Bool) (rows : List (List Cell × LineEnd)) (cells : List Cell)
    (text : Utf16) : Utf16 :=
  (if mark then [Utf16.byteOrderMark] else []) ++ ((rows.flatMap fun r => encodeRow d r.1 ++ r.2.text) ++
    ((cells.flatMap fun cell => cell.encode ++ [d]) ++ quote :: escape text))

theorem scan_cells (hd : Delimiter d) (hv : ∀ cell ∈ cells, cell.Valid d) :
    scan d ((cells.flatMap fun cell => cell.encode ++ [d]) ++ rest) ⟨acc, r, [], false, false⟩ =
      scan d rest ⟨acc, r ++ cells.map (·.text), [], false, false⟩ := by
  induction cells generalizing r
  case nil             => rw [List.flatMap_nil, List.nil_append, List.map_nil, List.append_nil]
  case cons cell cs hi =>
    have hne (tail : Utf16) : (d :: tail).head? ≠ some quote := fun he => hd.ne_quote (Option.some.inj he)
    rw [List.flatMap_cons, List.append_assoc, List.append_assoc, List.singleton_append]
    obtain ⟨b, hb⟩ := @scan_cell d _ cell acc r (hv cell (by simp)) (hne _)
    rw [hb, scan_delimiter hd rfl, Scan.closeField, hi fun c hc => hv c (by simp [hc]), List.append_assoc]
    rfl

-- Rows are closed one by one, if what follows the last of them does not continue its line end.
theorem scan_closed_rows (hd : Delimiter d) (h : ∀ r ∈ rows, ValidRow d r.1) (hr : rest.head? ≠ some lf) :
    scan d ((rows.flatMap fun r => encodeRow d r.1 ++ r.2.text) ++ rest) ⟨acc, [], [], false, false⟩ =
      scan d rest ⟨acc ++ rows.map fun r => r.1.map (·.text), [], [], false, false⟩ := by
  induction rows generalizing acc
  case nil             => rw [List.flatMap_nil, List.nil_append, List.map_nil, List.append_nil]
  case cons r rows hi =>
    have hhead : ((rows.flatMap fun r => encodeRow d r.1 ++ r.2.text) ++ rest).head? ≠ some lf := by
      cases rows
      case nil          => exact hr
      case cons next rs =>
        rw [List.flatMap_cons, List.append_assoc, List.append_assoc]
        exact encodeRow_head_ne hd (h next (by simp))
    rw [List.flatMap_cons, List.append_assoc, List.append_assoc, scan_closed hd r.2 (h r (by simp)) hhead,
      hi fun r hr => h r (by simp [hr]), List.append_assoc]
    rfl

theorem cells_head_ne (hd : Delimiter d) (hv : ∀ cell ∈ cells, cell.Valid d) :
    ((cells.flatMap fun cell => cell.encode ++ [d]) ++ quote :: rest).head? ≠ some lf := by
  have hq : quote ≠ lf := by decide
  have hdl : d ≠ lf := by rcases hd with rfl | rfl | rfl <;> decide
  cases cells
  case nil        => exact fun he => hq (Option.some.inj he)
  case cons cell cs =>
    rw [List.flatMap_cons, Cell.encode]
    cases hb : cell.quotes
    case true  => exact fun he => hq (Option.some.inj he)
    case false =>
      cases ht : cell.text
      case nil      => exact fun he => hdl (Option.some.inj he)
      case cons u t =>
        intro he
        exact hv cell (by simp) hb u (by rw [ht]; simp) (.inr (.inr (.inr (Option.some.inj he))))

-- A quoted field that is not closed is refused, whatever comes before it.
theorem parseCsv_open (hd : Delimiter d) (mark : Bool) (h : ∀ r ∈ rows, ValidRow d r.1)
    (hv : ∀ cell ∈ cells, cell.Valid d)
    (hm : mark = false → (encodeOpen d mark rows cells text).head? ≠ some Utf16.byteOrderMark) :
    parseCsv (encodeOpen d mark rows cells text) d = .error .invalidCsv := by
  have hdrop : (encodeOpen d mark rows cells text).dropMark = encodeOpen d false rows cells text := by
    cases mark
    case true  => exact Utf16.dropMark_cons _
    case false => exact Utf16.dropMark_of_ne (hm rfl)
  have hs : (scan d (encodeOpen d false rows cells text) .start).quoted = true := by
    have he := @scan_escape d [] text ⟨rows.map fun r => r.1.map (·.text), cells.map (·.text), [], true, true⟩ rfl
    rw [List.append_nil, scan] at he
    rw [encodeOpen, if_neg Bool.false_ne_true, List.nil_append, Scan.start,
      scan_closed_rows hd h (cells_head_ne hd hv), scan_cells hd hv, scan_open rfl rfl, List.nil_append,
      List.nil_append]
    exact congrArg Scan.quoted he
  rw [parseCsv, hdrop]
  exact if_pos hs

end Decoding

-- Decoding undoes encoding, and an unterminated field is refused.
theorem parseCsv_exact (d : CodeUnit) (hd : Delimiter d) (mark : Bool) (rows : List (List Cell × LineEnd))
    (h : ∀ r ∈ rows, ValidRow d r.1) :
    (∀ final, (∀ r ∈ rows.head?, Unmarked r.1) → rows.length ≤ 200000 →
      parseCsv (encode d mark final rows) d = .ok (rows.map fun r => r.1.map (·.text))) ∧
    ∀ cells text, (∀ cell ∈ cells, cell.Valid d) →
      (mark = false → (encodeOpen d mark rows cells text).head? ≠ some Utf16.byteOrderMark) →
      parseCsv (encodeOpen d mark rows cells text) d = .error .invalidCsv :=
  ⟨fun final hm hl => parseCsv_encode hd mark final h hm hl,
    fun _ _ hv hm => parseCsv_open hd mark h hv hm⟩

-- A header and a row with a quoted and an empty field.
def Testnet.table : List (List Cell × LineEnd) :=
  [([⟨Utf16.ofString "year", false⟩, ⟨Utf16.ofString "value, \"index\"", true⟩], .crlf),
    ([⟨Utf16.ofString "2026", false⟩, ⟨[], true⟩], .cr)]

theorem not_special (s : String) (h : (Utf16.ofString s).all (!special comma ·) = true) :
    ∀ c ∈ Utf16.ofString s, ¬ special comma c := fun c hc => by
  simpa using List.all_eq_true.mp h c hc

theorem parseCsv_exact_testnet : parseCsv (encode comma true false Testnet.table) comma =
    .ok (Testnet.table.map fun r => r.1.map (·.text)) := by
  have h : ∀ r ∈ Testnet.table, ValidRow comma r.1 := by
    intro r hr
    simp only [Testnet.table, List.mem_cons, List.not_mem_nil, or_false] at hr
    rcases hr with rfl | rfl <;> refine ⟨by simp, by simp [Blank], fun cell hc hq c hm => ?_⟩ <;>
      simp only [List.mem_cons, List.not_mem_nil, or_false] at hc <;> rcases hc with rfl | rfl
    · exact not_special "year" (by decide) c hm
    · cases hq
    · exact not_special "2026" (by decide) c hm
    · cases hq
  refine (parseCsv_exact comma (.inl rfl) true Testnet.table h).left false ?_ (by decide)
  intro r hr cell hc
  cases hr
  cases hc
  decide

end Readers.Csv
