/-
`cpu.c`: the trace file.

`read_address` is one `fscanf`, and the loop of `run_cpu` goes on until that returns EOF, which it
does at the end of the file only: where a conversion fails it returns 1 or 2, the fields behind it
keep the values of the record before, and the rest of the record is left for the next call. So the
loop simulates the records of the file and nothing else exactly if the file consists of complete
records ([`TraceText`]).
-/
import Mathlib.Data.List.TakeWhile
import ProjectsInC.CacheSim.Cpu
import ProjectsInC.Decimal
import ProjectsInC.Stdio

set_option autoImplicit false

namespace ProjectsInC.CacheSim

open AccessResult

/-! ## `%x`

What is stored for a number too wide for an `unsigned`, or below zero, the C standard leaves open:
that is the parameter `wide`. -/

/-- `isxdigit` -/
def isHexDigit (b : Byte) : Bool :=
  isDigit b || (97 ≤ b.toNat && b.toNat ≤ 102) || (65 ≤ b.toNat && b.toNat ≤ 70)

def hexDigitValue (b : Byte) : ℕ :=
  if isDigit b then b.toNat - 48 else if 97 ≤ b.toNat then b.toNat - 87 else b.toNat - 55

/-- What `%x` stores for a number. -/
def storeHex (wide : ℤ → Address) (n : ℤ) : Address :=
  if 0 ≤ n ∧ n < 2 ^ 32 then BitVec.ofInt 32 n else wide n

/-- What it stores for a run of digits behind a sign. -/
def hexNumber (wide : ℤ → Address) (negative : Bool) (digits : List Byte) : Address :=
  let n := digits.foldl (fun acc d => 16 * acc + hexDigitValue d) 0
  storeHex wide (if negative then -n else n)

/-- A sign, if there is one: is it a minus? -/
def scanSign : List Byte → Bool × List Byte
  | [] => (false, [])
  | b :: s => if b = 45 then (true, s) else if b = 43 then (false, s) else (false, b :: s)

/-- The `0x` in front of the digits, if there is one. -/
def skipMarker : List Byte → List Byte
  | b :: x :: s => if b = 48 ∧ (x = 120 ∨ x = 88) then s else b :: x :: s
  | s => s

/-- What `%x` reads and what it leaves; `none` if the conversion fails. -/
def scanHex (wide : ℤ → Address) (s : List Byte) : Option Address × List Byte :=
  let (negative, s) := scanSign (s.dropWhile isSpace)
  let s := skipMarker s
  if s.takeWhile isHexDigit = [] then (none, s)
  else (some (hexNumber wide negative (s.takeWhile isHexDigit)), s.dropWhile isHexDigit)

/-! ## The loop -/

/-- `,%c\n`: the size and what is left; `none` if the comma or the size is missing. -/
def scanSize : List Byte → Option Byte × List Byte
  | [] => (none, [])
  | [b] => (none, if b = 44 then [] else [b])
  | b :: size :: s => if b = 44 then (some size, s.dropWhile isSpace) else (none, b :: size :: s)

/-- `read_address`: `fscanf(address_trace, "%c %x,%c\n", ..)`. -/
def read_address (wide : ℤ → Address) (address_trace : FILE) (trace_line : TraceLine) :
    CInt × TraceLine × FILE :=
  match address_trace.rest with
  | [] => (EOF, trace_line, address_trace)
  | operation :: s =>
      let trace_line := { trace_line with operation := operation }
      match scanHex wide s with
      | (none, s) => (1, trace_line, { address_trace with rest := s })
      | (some address, s) =>
          let trace_line := { trace_line with address := address }
          match scanSize s with
          | (none, s) => (2, trace_line, { address_trace with rest := s })
          | (some size, s) =>
              (3, { trace_line with size := size }, { address_trace with rest := s })

/-- The loop of `run_cpu` on a file: the CPU behind it, or `none` where an access is undefined, and
the addresses passed to `cache_access`. `trace_line` is what the variable holds. -/
def run_cpu_loop (wide : ℤ → Address) : ℕ → CPU → FILE → TraceLine → Option CPU × List Address
  | 0, _, _, _ => (none, [])
  | fuel + 1, cpu, address_trace, trace_line =>
      let (count, trace_line, address_trace) := read_address wide address_trace trace_line
      if count = EOF then (some cpu, [])
      else
        match cache_access cpu.cache trace_line with
        | none => (none, [trace_line.address])
        | some (cache, result) =>
            let (cpu, addresses) :=
              run_cpu_loop wide fuel (cpu.count cache result) address_trace trace_line
            (cpu, trace_line.address :: addresses)

/-- The calls of `read_address` up to the end of the file: what each returned, and what was in
`trace_line` behind it. -/
def read_addresses (wide : ℤ → Address) : ℕ → FILE → TraceLine → List (CInt × TraceLine)
  | 0, _, _ => []
  | fuel + 1, address_trace, trace_line =>
      let (count, trace_line, address_trace) := read_address wide address_trace trace_line
      if count = EOF then []
      else (count, trace_line) :: read_addresses wide fuel address_trace trace_line

/-- The addresses of the records that were parsed completely. -/
def parsed (reads : List (CInt × TraceLine)) : List Address :=
  (reads.filter (fun read => read.1 = 3)).map (fun read => read.2.address)

/-! ## Complete records -/

/-- A hexadecimal number: a sign and a `0x`, both of which can be missing, and digits. -/
def HexText (wide : ℤ → Address) (text : List Byte) (value : Address) : Prop :=
  ∃ sign marker digits, text = sign ++ (marker ++ digits) ∧
    (sign = [] ∨ sign = [43] ∨ sign = [45]) ∧
    (marker = [] ∨ marker = [48, 120] ∨ marker = [48, 88]) ∧ digits ≠ [] ∧
    (∀ d ∈ digits, isHexDigit d = true) ∧ value = hexNumber wide (sign = [45]) digits

/-- A file of complete records, and their addresses: each record is an operation, white space, a
number, a comma and a size, with the white space up to the next record. -/
inductive TraceText (wide : ℤ → Address) : List Byte → List Address → Prop
  | nil : TraceText wide [] []
  | record (operation size : Byte) {spaces number spaces' rest : List Byte} {address : Address}
      {addresses : List Address} (hspaces : ∀ b ∈ spaces, isSpace b = true)
      (hnumber : HexText wide number address) (hspaces' : ∀ b ∈ spaces', isSpace b = true)
      (hrest : ∀ b ∈ rest.head?, isSpace b = false) (h : TraceText wide rest addresses) :
      TraceText wide (operation :: (spaces ++ (number ++ 44 :: size :: (spaces' ++ rest))))
        (address :: addresses)

/-- A library that converts to 64 bits, where a larger number becomes the largest, and stores the
low half. -/
def saturateHex (n : ℤ) : Address := if n.natAbs < 2 ^ 64 then BitVec.ofInt 32 n else -1

variable {wide : ℤ → Address}

/-! ## Scanning -/

section Scan

variable {s t : List Byte} {value : Address}

theorem scanSign_cons (b : Byte) (s : List Byte) : scanSign (b :: s)
    = if b = 45 then (true, s) else if b = 43 then (false, s) else (false, b :: s) := rfl

theorem skipMarker_cons (b x : Byte) (s : List Byte) : skipMarker (b :: x :: s)
    = if b = 48 ∧ (x = 120 ∨ x = 88) then s else b :: x :: s := rfl

theorem scanSign_split (s : List Byte) : ∃ sign, s = sign ++ (scanSign s).2 ∧
    (sign = [] ∨ sign = [43] ∨ sign = [45]) ∧ (scanSign s).1 = decide (sign = [45]) := by
  cases s with
  | nil => exact ⟨[], rfl, .inl rfl, rfl⟩
  | cons b s =>
      rw [scanSign_cons]
      split_ifs with hminus hplus
      · exact ⟨[45], by rw [hminus]; rfl, .inr (.inr rfl), rfl⟩
      · exact ⟨[43], by rw [hplus]; rfl, .inr (.inl rfl), rfl⟩
      · exact ⟨[], rfl, .inl rfl, rfl⟩

theorem skipMarker_split (s : List Byte) : ∃ marker, s = marker ++ skipMarker s ∧
    (marker = [] ∨ marker = [48, 120] ∨ marker = [48, 88]) := by
  match s with
  | [] => exact ⟨[], rfl, .inl rfl⟩
  | [b] => exact ⟨[], rfl, .inl rfl⟩
  | b :: x :: s =>
      rw [skipMarker_cons]
      split_ifs with hmarker
      · obtain ⟨rfl, rfl | rfl⟩ := hmarker
        · exact ⟨[48, 120], rfl, .inr (.inl rfl)⟩
        · exact ⟨[48, 88], rfl, .inr (.inr rfl)⟩
      · exact ⟨[], rfl, .inl rfl⟩

/-- What is read is a number, behind white space. -/
theorem scanHex_sound (h : scanHex wide s = (some value, t)) : ∃ spaces number,
    s = spaces ++ (number ++ t) ∧ (∀ b ∈ spaces, isSpace b = true) ∧ HexText wide number value := by
  obtain ⟨sign, hsign, hsigns, hnegative⟩ := scanSign_split (s.dropWhile isSpace)
  obtain ⟨marker, hmarker, hmarkers⟩ := skipMarker_split (scanSign (s.dropWhile isSpace)).2
  unfold scanHex at h
  simp only at h
  split_ifs at h with hnone
  · cases h
  · obtain ⟨hvalue, rfl⟩ := Prod.mk.inj h
    refine ⟨s.takeWhile isSpace, _, ?_, fun b hb => List.mem_takeWhile_imp hb,
      sign, marker, _, rfl, hsigns, hmarkers, hnone, fun d hd => List.mem_takeWhile_imp hd, ?_⟩
    · rw [List.append_assoc, List.append_assoc, List.takeWhile_append_dropWhile, ← hmarker, ← hsign,
        List.takeWhile_append_dropWhile]
    · rw [← Option.some.inj hvalue, hnegative]

/-- The first byte of a number is no white space, and none but the first is a sign. -/
theorem isHexDigit_spec : ∀ b : Byte, isHexDigit b = true →
    isSpace b = false ∧ b ≠ 45 ∧ b ≠ 43 ∧ b ≠ 120 ∧ b ≠ 88 := by
  decide

/-- A number in front of a comma is read. -/
theorem scanHex_complete {spaces number : List Byte} (hspaces : ∀ b ∈ spaces, isSpace b = true)
    (hnumber : HexText wide number value) :
    scanHex wide (spaces ++ (number ++ 44 :: t)) = (some value, 44 :: t) := by
  obtain ⟨sign, marker, digits, rfl, hsign, hmarker, hne, hdigits, rfl⟩ := hnumber
  obtain ⟨d, ds, rfl⟩ := List.exists_cons_of_ne_nil hne
  have hd := isHexDigit_spec d (hdigits d List.mem_cons_self)
  -- the marker and what is behind it
  have hskip : skipMarker (marker ++ (d :: ds) ++ 44 :: t) = d :: ds ++ 44 :: t := by
    rcases hmarker with rfl | rfl | rfl
    · cases ds with
      | nil =>
          change skipMarker (d :: 44 :: t) = _
          rw [skipMarker_cons, if_neg (fun h => absurd h.2 (by decide))]
          rfl
      | cons d' ds =>
          have hd' := isHexDigit_spec d' (hdigits d' (by simp))
          change skipMarker (d :: d' :: (ds ++ 44 :: t)) = _
          rw [skipMarker_cons, if_neg (fun h => h.2.elim hd'.2.2.2.1 hd'.2.2.2.2)]
          rfl
    · rfl
    · rfl
  have hhead : ∃ b tail, marker ++ (d :: ds) ++ 44 :: t = b :: tail ∧
      isSpace b = false ∧ b ≠ 45 ∧ b ≠ 43 := by
    rcases hmarker with rfl | rfl | rfl
    · exact ⟨d, _, rfl, hd.1, hd.2.1, hd.2.2.1⟩
    · exact ⟨48, _, rfl, by decide, by decide, by decide⟩
    · exact ⟨48, _, rfl, by decide, by decide, by decide⟩
  obtain ⟨b, tail, hb, hspace, hminus, hplus⟩ := hhead
  have hscan : scanSign ((sign ++ (marker ++ (d :: ds)) ++ 44 :: t).dropWhile isSpace)
      = (decide (sign = [45]), b :: tail) := by
    rw [List.append_assoc, hb]
    rcases hsign with rfl | rfl | rfl
    · rw [List.nil_append, List.dropWhile_cons_of_neg (by simp [hspace])]
      rw [scanSign_cons, if_neg hminus, if_neg hplus]
      rfl
    · rfl
    · rfl
  have htake : (d :: ds ++ 44 :: t).takeWhile isHexDigit = d :: ds := by
    rw [List.takeWhile_append_of_pos hdigits, List.takeWhile_cons_of_neg (by decide),
      List.append_nil]
  have hdrop : (d :: ds ++ 44 :: t).dropWhile isHexDigit = 44 :: t := by
    rw [List.dropWhile_append_of_pos hdigits, List.dropWhile_cons_of_neg (by decide)]
  unfold scanHex
  rw [List.dropWhile_append_of_pos hspaces, hscan]
  simp only
  rw [← hb, hskip, htake, hdrop, if_neg (List.cons_ne_nil d ds)]

theorem scanSize_cons (b size : Byte) (s : List Byte) : scanSize (b :: size :: s)
    = if b = 44 then (some size, s.dropWhile isSpace) else (none, b :: size :: s) := rfl

theorem scanSize_sound {size : Byte} (h : scanSize s = (some size, t)) :
    ∃ spaces, s = 44 :: size :: (spaces ++ t) ∧ (∀ b ∈ spaces, isSpace b = true) ∧
      ∀ b ∈ t.head?, isSpace b = false := by
  match s with
  | [] => cases h
  | [b] => cases h
  | b :: c :: s =>
      rw [scanSize_cons] at h
      split_ifs at h with hcomma
      · obtain ⟨hsize, rfl⟩ := Prod.mk.inj h
        obtain rfl := Option.some.inj hsize
        refine ⟨s.takeWhile isSpace, ?_, fun b hb => List.mem_takeWhile_imp hb, ?_⟩
        · rw [List.takeWhile_append_dropWhile, hcomma]
        · intro b hb
          have hnot := List.head?_dropWhile_not isSpace s
          rw [hb] at hnot
          simpa using hnot
      · cases h

theorem scanSize_complete (size : Byte) {spaces : List Byte}
    (hspaces : ∀ b ∈ spaces, isSpace b = true) (ht : ∀ b ∈ t.head?, isSpace b = false) :
    scanSize (44 :: size :: (spaces ++ t)) = (some size, t) := by
  have hdrop : t.dropWhile isSpace = t := by
    cases t with
    | nil => rfl
    | cons b t => exact List.dropWhile_cons_of_neg (by simp [ht b rfl])
  rw [scanSize_cons, if_pos rfl, List.dropWhile_append_of_pos hspaces, hdrop]

theorem length_scanHex_le (s : List Byte) : (scanHex wide s).2.length ≤ s.length := by
  obtain ⟨sign, hsign, -, -⟩ := scanSign_split (s.dropWhile isSpace)
  obtain ⟨marker, hmarker, -⟩ := skipMarker_split (scanSign (s.dropWhile isSpace)).2
  have hskip := (List.dropWhile_suffix isSpace (l := s)).length_le
  have hleft := (List.dropWhile_suffix isHexDigit
    (l := skipMarker (scanSign (s.dropWhile isSpace)).2)).length_le
  have hsignLen := congrArg List.length hsign
  have hmarkerLen := congrArg List.length hmarker
  rw [List.length_append] at hsignLen hmarkerLen
  unfold scanHex
  simp only
  split_ifs
  · change (skipMarker (scanSign (s.dropWhile isSpace)).2).length ≤ s.length
    omega
  · change ((skipMarker (scanSign (s.dropWhile isSpace)).2).dropWhile isHexDigit).length ≤ s.length
    omega

theorem length_scanSize_le (s : List Byte) : (scanSize s).2.length ≤ s.length := by
  match s with
  | [] => exact Nat.le_refl _
  | [b] =>
      have hsingle : scanSize [b] = (none, if b = 44 then [] else [b]) := rfl
      rw [hsingle]
      split_ifs
      · exact Nat.zero_le _
      · exact Nat.le_refl _
  | b :: size :: s =>
      have hskip := (List.dropWhile_suffix isSpace (l := s)).length_le
      rw [scanSize_cons]
      split_ifs
      · exact hskip.trans ((Nat.le_succ _).trans (Nat.le_succ _))
      · exact Nat.le_refl _

end Scan

/-! ## A record -/

section Record

variable {address_trace address_trace' : FILE} {trace_line trace_line' : TraceLine} {count : CInt}

/-- What a call does: at the end of the file, where a conversion fails, and with a record. -/
theorem read_address_cases
    (h : read_address wide address_trace trace_line = (count, trace_line', address_trace')) :
    (address_trace.rest = [] ∧ count = EOF) ∨
    ∃ operation s t, address_trace.rest = operation :: s ∧
      address_trace' = { address_trace with rest := t } ∧ t.length ≤ s.length ∧
      (count = 1 ∨ count = 2 ∨ (count = 3 ∧ ∃ size s',
        scanHex wide s = (some trace_line'.address, s') ∧ scanSize s' = (some size, t))) := by
  unfold read_address at h
  cases hrest : address_trace.rest with
  | nil =>
      rw [hrest] at h
      exact .inl ⟨rfl, (Prod.mk.inj h).1.symm⟩
  | cons operation s =>
      have hhex := @length_scanHex_le wide s
      rw [hrest] at h
      simp only at h
      obtain ⟨value, s', hscan⟩ : ∃ value s', scanHex wide s = (value, s') := ⟨_, _, rfl⟩
      rw [hscan] at h hhex
      cases value with
      | none =>
          cases h
          exact .inr ⟨operation, s, s', rfl, rfl, hhex, .inl rfl⟩
      | some address =>
          have hsize := length_scanSize_le s'
          simp only at h
          obtain ⟨size, t, hscan'⟩ : ∃ size t, scanSize s' = (size, t) := ⟨_, _, rfl⟩
          rw [hscan'] at h hsize
          have hle : t.length ≤ s.length := hsize.trans hhex
          cases size with
          | none =>
              cases h
              exact .inr ⟨operation, s, t, rfl, rfl, hle, .inr (.inl rfl)⟩
          | some size =>
              cases h
              exact .inr ⟨operation, s, t, rfl, rfl, hle, .inr (.inr ⟨rfl, size, s', hscan, hscan'⟩)⟩

/-- Every call that does not return EOF takes a byte at least. -/
theorem read_address_shorter
    (h : read_address wide address_trace trace_line = (count, trace_line', address_trace'))
    (hne : count ≠ EOF) : address_trace'.rest.length < address_trace.rest.length := by
  rcases read_address_cases h with ⟨-, heof⟩ | ⟨operation, s, t, hrest, rfl, hle, -⟩
  · exact absurd heof hne
  · rw [hrest, List.length_cons]
    exact Nat.lt_succ_of_le hle

/-- EOF is the end of the file. -/
theorem rest_of_eof
    (h : read_address wide address_trace trace_line = (EOF, trace_line', address_trace')) :
    address_trace.rest = [] := by
  rcases read_address_cases h with ⟨hrest, -⟩ | ⟨operation, s, t, -, -, -, hcount⟩
  · exact hrest
  · rcases hcount with hcount | hcount | ⟨hcount, -⟩
    all_goals exact absurd hcount (by decide)

/-- A record that is parsed completely is one. -/
theorem read_address_sound
    (h : read_address wide address_trace trace_line = (3, trace_line', address_trace'))
    {addresses : List Address} (hrest : TraceText wide address_trace'.rest addresses) :
    TraceText wide address_trace.rest (trace_line'.address :: addresses) := by
  rcases read_address_cases h with ⟨-, heof⟩ | ⟨operation, s, t, hs, rfl, -, hcount⟩
  · exact absurd heof (by decide)
  · rcases hcount with hcount | hcount | ⟨-, size, s', hscan, hscan'⟩
    · exact absurd hcount (by decide)
    · exact absurd hcount (by decide)
    · obtain ⟨spaces, number, rfl, hspaces, hnumber⟩ := scanHex_sound hscan
      obtain ⟨spaces', rfl, hspaces', ht⟩ := scanSize_sound hscan'
      rw [hs]
      exact TraceText.record operation size hspaces hnumber hspaces' ht hrest

/-- A complete record is parsed. -/
theorem read_address_complete {operation size : Byte} {spaces number spaces' rest : List Byte}
    {address : Address} (hspaces : ∀ b ∈ spaces, isSpace b = true)
    (hnumber : HexText wide number address) (hspaces' : ∀ b ∈ spaces', isSpace b = true)
    (hrest : ∀ b ∈ rest.head?, isSpace b = false)
    (h : address_trace.rest
      = operation :: (spaces ++ (number ++ 44 :: size :: (spaces' ++ rest)))) :
    read_address wide address_trace trace_line
      = (3, ⟨operation, address, size⟩, { address_trace with rest := rest }) := by
  unfold read_address
  rw [h]
  simp only [scanHex_complete hspaces hnumber, scanSize_complete size hspaces' hrest]

end Record

/-! ## The whole file -/

section File

variable {address_trace : FILE} {trace_line : TraceLine} {fuel : ℕ} {addresses : List Address}

/-- A file of complete records: every call parses one. -/
theorem read_addresses_complete {bytes : List Byte} (h : TraceText wide bytes addresses)
    (hbytes : address_trace.rest = bytes) (hfuel : bytes.length < fuel) :
    (∀ read ∈ read_addresses wide fuel address_trace trace_line, read.1 = 3) ∧
      (read_addresses wide fuel address_trace trace_line).map (fun read => read.2.address)
        = addresses := by
  induction h generalizing address_trace trace_line fuel with
  | nil =>
      obtain ⟨fuel, rfl⟩ := Nat.exists_eq_add_of_le' (Nat.one_le_of_lt hfuel)
      have heof : read_addresses wide (fuel + 1) address_trace trace_line = [] := by
        unfold read_addresses read_address
        rw [hbytes]
        rfl
      rw [heof]
      exact ⟨fun read hread => absurd hread List.not_mem_nil, rfl⟩
  | @record operation size spaces number spaces' rest address addresses hspaces hnumber hspaces' hrest
      _ ih =>
      obtain ⟨fuel, rfl⟩ := Nat.exists_eq_add_of_le' (Nat.one_le_of_lt hfuel)
      have hread : read_address wide address_trace trace_line = _ :=
        read_address_complete hspaces hnumber hspaces' hrest hbytes
      have hshort := read_address_shorter hread (by decide)
      rw [hbytes] at hshort
      obtain ⟨hall, hmap⟩ := @ih { address_trace with rest := rest } ⟨operation, address, size⟩ fuel
        rfl (by simp only at hshort; omega)
      have hstep : read_addresses wide (fuel + 1) address_trace trace_line
          = (3, ⟨operation, address, size⟩) ::
            read_addresses wide fuel { address_trace with rest := rest }
              ⟨operation, address, size⟩ := by
        rw [read_addresses, hread]
        rfl
      rw [hstep, List.map_cons, hmap]
      refine ⟨?_, rfl⟩
      intro read hmem
      rcases List.mem_cons.mp hmem with rfl | hmem
      · rfl
      · exact hall read hmem

/-- If every call parses a record the file consists of them. -/
theorem read_addresses_sound (hfuel : address_trace.rest.length < fuel)
    (h : ∀ read ∈ read_addresses wide fuel address_trace trace_line, read.1 = 3) :
    TraceText wide address_trace.rest
      ((read_addresses wide fuel address_trace trace_line).map (fun read => read.2.address)) := by
  induction fuel generalizing address_trace trace_line with
  | zero => exact absurd hfuel (Nat.not_lt_zero _)
  | succ fuel ih =>
      obtain ⟨count, line, file, hread⟩ : ∃ count line file,
          read_address wide address_trace trace_line = (count, line, file) := ⟨_, _, _, rfl⟩
      rw [read_addresses, hread] at h ⊢
      simp only at h ⊢
      split_ifs at h ⊢ with heof
      · subst heof
        rw [rest_of_eof hread]
        exact TraceText.nil
      · obtain rfl : count = 3 := h (count, line) List.mem_cons_self
        have hshort := read_address_shorter hread heof
        rw [List.map_cons]
        exact read_address_sound hread
          (ih (by omega) (fun read hmem => h read (List.mem_cons_of_mem _ hmem)))

/-- **The loop** makes an access for every call. -/
theorem run_cpu_loop_eq {cpu cpu' : CPU} (hfuel : address_trace.rest.length < fuel)
    (h : run_cpu cpu ((read_addresses wide fuel address_trace trace_line).map Prod.snd) = some cpu') :
    run_cpu_loop wide fuel cpu address_trace trace_line = (some cpu',
      (read_addresses wide fuel address_trace trace_line).map (fun read => read.2.address)) := by
  induction fuel generalizing cpu address_trace trace_line with
  | zero => exact absurd hfuel (Nat.not_lt_zero _)
  | succ fuel ih =>
      obtain ⟨count, line, file, hread⟩ : ∃ count line file,
          read_address wide address_trace trace_line = (count, line, file) := ⟨_, _, _, rfl⟩
      rw [read_addresses, hread] at h ⊢
      rw [run_cpu_loop, hread]
      simp only at h ⊢
      by_cases heof : count = EOF
      · rw [if_pos heof] at h ⊢
        rw [if_pos heof]
        obtain rfl : cpu = cpu' := Option.some.inj h
        rfl
      · rw [if_neg heof] at h ⊢
        rw [if_neg heof]
        have hshort := read_address_shorter hread heof
        unfold run_cpu at h
        rw [List.map_cons, List.foldlM_cons, Option.bind_eq_bind, Option.bind_eq_some_iff] at h
        obtain ⟨cpu₁, hstep, hrest⟩ := h
        obtain ⟨⟨cache, result⟩, haccess, rfl⟩ := Option.map_eq_some_iff.mp hstep
        rw [haccess]
        simp only
        rw [ih (by omega) hrest]
        rfl

/-- The addresses of the complete records are those of all calls if every call parsed one, and
fewer if not. -/
theorem parsed_eq_iff (reads : List (CInt × TraceLine)) :
    reads.map (fun read => read.2.address) = parsed reads ↔ ∀ read ∈ reads, read.1 = 3 := by
  unfold parsed
  constructor
  · intro h
    have hlen := congrArg List.length h
    rw [List.length_map, List.length_map, eq_comm, List.length_filter_eq_length_iff] at hlen
    exact fun read hread => of_decide_eq_true (hlen read hread)
  · intro h
    rw [List.filter_eq_self.mpr (fun read hread => decide_eq_true (h read hread))]

end File

/-- **Only parsed addresses are simulated** exactly if the file consists of complete records. For
every cache with a set bit, a block bit and a line in each set, and every content of the file,
whatever is in the variable `trace_line` at first: the loop ends, and the addresses passed to
`cache_access` are those of the records that were parsed completely, which it has counted, just for
these files; and then they are the addresses in the records. -/
theorem run_cpu_parsed_iff (wide : ℤ → Address) (garbage : ℕ → ℕ → ℕ → Byte) {s E b : ℕ}
    (hs : 1 ≤ s) (hb : 1 ≤ b) (hsb : s + b ≤ 30) (hE : 1 ≤ E) (bytes : List Byte)
    (trace_line : TraceLine) :
    ∃ cpu addresses,
      run_cpu_loop wide (bytes.length + 1) (make_cpu (make_cache garbage s E b)) (FILE.reading bytes)
        trace_line = (some cpu, addresses) ∧
      ((addresses
          = parsed (read_addresses wide (bytes.length + 1) (FILE.reading bytes) trace_line) ∧
        cpu.address_count = BitVec.ofNat 32
          (parsed (read_addresses wide (bytes.length + 1) (FILE.reading bytes) trace_line)).length) ↔
        ∃ records, TraceText wide bytes records) ∧
      ∀ records, TraceText wide bytes records → addresses = records := by
  have hfuel : (FILE.reading bytes).rest.length < bytes.length + 1 := Nat.lt_succ_self _
  obtain ⟨reads, hreads⟩ : ∃ reads, reads =
      read_addresses wide (bytes.length + 1) (FILE.reading bytes) trace_line := ⟨_, rfl⟩
  have hresults := (tracks_fresh garbage s E b).access_results hs hb hsb hE (reads.map Prod.snd)
  obtain ⟨cpu, hrun, -, hcount, -⟩ :=
    run_cpu_counts (make_cpu (make_cache garbage s E b)) hresults
  have hloop := run_cpu_loop_eq hfuel (hreads ▸ hrun)
  rw [← hreads] at hloop ⊢
  rw [length_verdicts, List.length_map] at hcount
  refine ⟨cpu, _, hloop, ⟨?_, ?_⟩, ?_⟩
  · rintro ⟨haddresses, -⟩
    rw [parsed_eq_iff] at haddresses
    rw [hreads] at haddresses
    exact ⟨_, read_addresses_sound hfuel haddresses⟩
  · rintro ⟨records, htext⟩
    obtain ⟨hall, -⟩ :=
      @read_addresses_complete wide (FILE.reading bytes) trace_line _ _ _ htext rfl hfuel
    rw [← hreads, ← parsed_eq_iff] at hall
    refine ⟨hall, ?_⟩
    rw [← hall, List.length_map, hcount]
    exact zero_add _
  · intro records htext
    obtain ⟨-, hmap⟩ :=
      @read_addresses_complete wide (FILE.reading bytes) trace_line _ _ _ htext rfl hfuel
    rw [← hreads] at hmap
    exact hmap

/-- The file "L 4,1\nS 0x8,2\nL 4,1". -/
theorem run_cpu_parsed_iff_three :
    ∃ cpu, run_cpu_loop saturateHex 20 (make_cpu (make_cache (fun _ _ _ => 0) 1 1 1))
        (FILE.reading [76, 32, 52, 44, 49, 10, 83, 32, 48, 120, 56, 44, 50, 10, 76, 32, 52, 44, 49])
        ⟨0, 0, 0⟩ = (some cpu, [4, 8, 4]) ∧ cpu.address_count = 3 := by
  have hfour : HexText saturateHex [52] 4 :=
    ⟨[], [], [52], rfl, .inl rfl, .inl rfl, by decide, by decide, by decide⟩
  have height : HexText saturateHex [48, 120, 56] 8 :=
    ⟨[], [48, 120], [56], rfl, .inl rfl, .inr (.inl rfl), by decide, by decide, by decide⟩
  have hthird : TraceText saturateHex [76, 32, 52, 44, 49] [4] :=
    @TraceText.record _ 76 49 [32] [52] [] [] 4 [] (by decide) hfour (by decide) (by decide)
      TraceText.nil
  have hsecond := @TraceText.record _ 83 50 [32] [48, 120, 56] [10] _ 8 _ (by decide) height
    (by decide) (by decide) hthird
  have hfirst := @TraceText.record _ 76 49 [32] [52] [10] _ 4 _ (by decide) hfour (by decide)
    (by decide) hsecond
  obtain ⟨cpu, addresses, hloop, hparsed, hrecords⟩ :=
    run_cpu_parsed_iff saturateHex (fun _ _ _ => 0) (s := 1) (E := 1) (b := 1) (by decide)
      (by decide) (by decide) (by decide)
      [76, 32, 52, 44, 49, 10, 83, 32, 48, 120, 56, 44, 50, 10, 76, 32, 52, 44, 49] ⟨0, 0, 0⟩
  obtain rfl := hrecords _ hfirst
  obtain ⟨haddresses, hcount⟩ := hparsed.mpr ⟨_, hfirst⟩
  rw [← haddresses] at hcount
  exact ⟨cpu, hloop, hcount⟩

/-- In the file "L 4,1\nX" the second line has no address: it is counted as another access to the
address 4, and a HIT. -/
theorem run_cpu_unparsed :
    ∃ cpu, run_cpu_loop saturateHex 8 (make_cpu (make_cache (fun _ _ _ => 0) 1 1 1))
        (FILE.reading [76, 32, 52, 44, 49, 10, 88]) ⟨0, 0, 0⟩ = (some cpu, [4, 4]) ∧
      parsed (read_addresses saturateHex 8 (FILE.reading [76, 32, 52, 44, 49, 10, 88]) ⟨0, 0, 0⟩)
        = [4] ∧
      cpu.address_count = 2 ∧ cpu.hits = 1 := by
  have hhex : scanHex saturateHex [32, 52, 44, 49, 10, 88] = (some 4, [44, 49, 10, 88]) := by
    decide
  have hfirst : read_address saturateHex (FILE.reading [76, 32, 52, 44, 49, 10, 88]) ⟨0, 0, 0⟩
      = (3, ⟨76, 4, 49⟩, FILE.reading [88]) := by
    simp only [read_address, FILE.reading, hhex]
    rfl
  have hsecond : read_address saturateHex (FILE.reading [88]) ⟨76, 4, 49⟩
      = (1, ⟨88, 4, 49⟩, FILE.reading []) := rfl
  rw [run_cpu_loop, read_addresses, hfirst]
  simp only [run_cpu_loop, read_addresses, hsecond]
  exact ⟨_, rfl, rfl, rfl, rfl⟩

end ProjectsInC.CacheSim
