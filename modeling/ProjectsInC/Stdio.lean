/-
Files, as `stdio.h` shows them.

A file open for reading is the bytes still to come; a file open for writing is
the bytes written so far. Reading ends with EOF and never fails otherwise;
whether an output call fails is decided, call by call, by the field `fails`.
-/
import ProjectsInC.Machine
import ProjectsInC.Lib.Pieces

set_option autoImplicit false

namespace ProjectsInC

/-- `FILE` -/
structure FILE where
  rest : List Byte
  written : List Byte
  calls : ℕ
  fails : ℕ → Bool

/-- `EOF` -/
def EOF : CInt := -1

/-- A file opened for reading. -/
def FILE.reading (bytes : List Byte) : FILE := ⟨bytes, [], 0, fun _ => false⟩

/-- A file opened for writing. -/
def FILE.writing (fails : ℕ → Bool) : FILE := ⟨[], [], 0, fails⟩

/-- A file opened for writing that takes everything. -/
def FILE.reliable : FILE := FILE.writing (fun _ => false)

/-- The characters of a string literal. -/
def ascii (s : String) : List Byte := s.toList.map (fun c => BitVec.ofNat 8 c.toNat)

/-- `fgetc`: the next byte as an `unsigned char`. -/
def fgetc (fp : FILE) : CInt × FILE :=
  match fp.rest with
  | [] => (EOF, fp)
  | b :: rest => (b.setWidth 32, { fp with rest := rest })

/-- `fgets(s, n, fp)`: up to `n - 1` characters, no further than to a newline; `none` is NULL. -/
def fgets (n : ℕ) (fp : FILE) : Option (List Byte) × FILE :=
  let (line, rest) := Lib.takePiece 10 (n - 1) fp.rest
  if line = [] then (none, fp) else (some line, { fp with rest := rest })

/-- `ungetc` -/
def ungetc (c : CInt) (fp : FILE) : FILE :=
  if c = EOF then fp else { fp with rest := c.setWidth 8 :: fp.rest }

/-- `fputc` -/
def fputc (c : CInt) (fp : FILE) : CInt × FILE :=
  if fp.fails fp.calls then (EOF, { fp with calls := fp.calls + 1 })
  else ((c.setWidth 8).setWidth 32,
    { fp with written := fp.written ++ [c.setWidth 8], calls := fp.calls + 1 })

/-- `fprintf` of a text. -/
def fprintf (text : List Byte) (fp : FILE) : CInt × FILE :=
  if fp.fails fp.calls then (-1, { fp with calls := fp.calls + 1 })
  else (BitVec.ofNat 32 text.length,
    { fp with written := fp.written ++ text, calls := fp.calls + 1 })

/-! ## Reading -/

@[simp] theorem fgetc_reading_nil (fp : FILE) (h : fp.rest = []) : fgetc fp = (EOF, fp) := by
  simp [fgetc, h]

theorem fgetc_cons {fp : FILE} {b : Byte} {rest : List Byte} (h : fp.rest = b :: rest) :
    fgetc fp = (b.setWidth 32, { fp with rest := rest }) := by
  simp [fgetc, h]

/-- At the end of the file there is no line. -/
theorem fgets_end (n : ℕ) {fp : FILE} (h : fp.rest = []) : fgets n fp = (none, fp) := by
  rw [fgets, h, Lib.takePiece_nil]
  rfl

/-- A line is a maximal piece of the file. -/
theorem fgets_piece {n : ℕ} {fp : FILE} {line rest : List Byte}
    (hline : Lib.Piece (n - 1) 10 line rest) (h : fp.rest = line ++ rest) :
    fgets n fp = (some line, { fp with rest := rest }) := by
  rw [fgets, h, hline.take]
  exact if_neg hline.ne_nil

/-- A byte that was read is not EOF. -/
theorem byte_ne_eof (b : Byte) : (b.setWidth 32 : CInt) ≠ EOF := by
  intro h
  have hnat := congrArg BitVec.toNat h
  have hlt := b.isLt
  have heof : EOF.toNat = 4294967295 := by decide
  rw [BitVec.toNat_setWidth, heof] at hnat
  omega

/-- A number that fits into an `int` is not EOF. -/
theorem ofNat_ne_eof {n : ℕ} (hn : n < 2 ^ 31) : BitVec.ofNat 32 n ≠ EOF := by
  intro heq
  have hint := toInt_ofNat_of_lt hn
  rw [heq, show EOF.toInt = -1 from by decide] at hint
  omega

/-- A byte survives the trip through an `int`. -/
theorem setWidth_byte (b : Byte) : (b.setWidth 32 : CInt).setWidth 8 = b := by
  rw [BitVec.setWidth_setWidth_of_le b (by omega), BitVec.setWidth_eq]

/-- So does a `char`. -/
theorem setWidth_char : ∀ c : Byte, (c.signExtend 32 : CInt).setWidth 8 = c := by
  decide

/-- The byte that looks like EOF in a `char`. -/
theorem signExtend_eq_eof_iff : ∀ c : Byte, c.signExtend 32 = EOF ↔ c = 255 := by
  unfold EOF
  decide

/-- A byte in a `char` goes back into the file as it came, unless it is 255. -/
theorem ungetc_char {b : Byte} (h : b ≠ 255) (fp : FILE) :
    ungetc (b.signExtend 32) fp = { fp with rest := b :: fp.rest } := by
  rw [ungetc, if_neg (fun heof => h ((signExtend_eq_eof_iff b).mp heof)), setWidth_char]

/-- A call takes at most one byte. -/
theorem length_fgetc_rest (stdin : FILE) :
    stdin.rest.length ≤ (fgetc stdin).2.rest.length + 1 := by
  cases hrest : stdin.rest with
  | nil => exact Nat.zero_le _
  | cons b rest =>
      rw [fgetc_cons hrest]
      exact le_rfl

/-- No call gives a byte back. -/
theorem length_fgetc_le (fp : FILE) : (fgetc fp).2.rest.length ≤ fp.rest.length := by
  cases hrest : fp.rest with
  | nil => rw [fgetc_reading_nil fp hrest, hrest]
  | cons b rest =>
      rw [fgetc_cons hrest]
      exact Nat.le_succ _

/-- Looking at the next character takes nothing, or a byte 255. -/
theorem length_ungetc_fgetc (fp : FILE) :
    (ungetc (((fgetc fp).1.setWidth 8 : Byte).signExtend 32) (fgetc fp).2).rest.length
      ≤ fp.rest.length := by
  cases hrest : fp.rest with
  | nil =>
      rw [fgetc_reading_nil fp hrest]
      have heof : ((EOF.setWidth 8 : Byte).signExtend 32 : CInt) = EOF := by decide
      rw [ungetc, heof, if_pos rfl, hrest]
  | cons b rest =>
      rw [fgetc_cons hrest, ungetc]
      split_ifs
      · exact Nat.le_succ _
      · exact le_rfl

/-! ## Writing -/

theorem fprintf_ok {fp : FILE} (h : fp.fails fp.calls = false) (text : List Byte) :
    fprintf text fp = (BitVec.ofNat 32 text.length,
      { fp with written := fp.written ++ text, calls := fp.calls + 1 }) := by
  simp [fprintf, h]

theorem fprintf_fails {fp : FILE} (h : fp.fails fp.calls = true) (text : List Byte) :
    fprintf text fp = (-1, { fp with calls := fp.calls + 1 }) := by
  simp [fprintf, h]

theorem fputc_fails {fp : FILE} (h : fp.fails fp.calls = true) (c : CInt) :
    fputc c fp = (EOF, { fp with calls := fp.calls + 1 }) := by
  simp [fputc, h]

theorem fputc_ok {fp : FILE} (h : fp.fails fp.calls = false) (c : CInt) :
    fputc c fp = ((c.setWidth 8).setWidth 32,
      { fp with written := fp.written ++ [c.setWidth 8], calls := fp.calls + 1 }) := by
  simp [fputc, h]

end ProjectsInC
