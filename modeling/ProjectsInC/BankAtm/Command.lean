/-
`command.c`: the 17-byte message the ATMs and the bank exchange.

A `Command` is kept as the bytes the C struct holds, because that is what
travels through the pipes and what a trace file stores; both ends look at it
only through [`cmd_unpack`]. The two directions of the packing are proved
inverse here, once, so that every later file can speak about the five fields.
-/
import ProjectsInC.Machine

set_option autoImplicit false

namespace ProjectsInC.BankAtm

/-! ## The message -/

/-- A `byte[4]` field. -/
@[ext] structure Bytes4 where
  b0 : Byte
  b1 : Byte
  b2 : Byte
  b3 : Byte
deriving DecidableEq, Repr

/-- `struct command`: `ciiiiffffttttaaaa`. -/
@[ext] structure Command where
  cmd : Byte
  id : Bytes4
  from_ : Bytes4
  to_ : Bytes4
  amt : Bytes4
deriving DecidableEq, Repr

/-- `MESSAGE_SIZE` -/
def MESSAGE_SIZE : ℤ := 17

/-! ## The command codes -/

/-- `OK` -/
def OK : Byte := 0
/-- `CONNECT` -/
def CONNECT : Byte := 1
/-- `EXIT` -/
def EXIT : Byte := 2
/-- `DEPOSIT` -/
def DEPOSIT : Byte := 3
/-- `WITHDRAW` -/
def WITHDRAW : Byte := 4
/-- `TRANSFER` -/
def TRANSFER : Byte := 5
/-- `BALANCE` -/
def BALANCE : Byte := 6
/-- `NOFUNDS` -/
def NOFUNDS : Byte := 7
/-- `ACCUNKN` -/
def ACCUNKN : Byte := 9

/-- The test `atm` and `bank` both make: one of the six commands an ATM may
send. -/
def isRequest (c : Byte) : Bool :=
  c == CONNECT || c == EXIT || c == DEPOSIT || c == TRANSFER || c == BALANCE || c == WITHDRAW

/-! ## Packing -/

/-- `pack_int` -/
def pack_int (x : CInt) : Bytes4 :=
  ⟨(x >>> 24).setWidth 8, (x >>> 16).setWidth 8, (x >>> 8).setWidth 8, x.setWidth 8⟩

/-- `unpack_int` -/
def unpack_int (b : Bytes4) : CInt :=
  (b.b0.setWidth 32 <<< 24) ||| (b.b1.setWidth 32 <<< 16) ||| (b.b2.setWidth 32 <<< 8) |||
    b.b3.setWidth 32

/-- What `cmd_unpack` stores through its five out-parameters. -/
@[ext] structure Fields where
  c : Byte
  i : CInt
  f : CInt
  t : CInt
  a : CInt
deriving DecidableEq, Repr

/-- `cmd_pack` -/
def cmd_pack (c : Byte) (id from_ to_ amt : CInt) : Command :=
  ⟨c, pack_int id, pack_int from_, pack_int to_, pack_int amt⟩

/-- `cmd_unpack` -/
def cmd_unpack (cmd : Command) : Fields :=
  ⟨cmd.cmd, unpack_int cmd.id, unpack_int cmd.from_, unpack_int cmd.to_, unpack_int cmd.amt⟩

/-- `MSG_OK` -/
def MSG_OK (id f t a : CInt) : Command := cmd_pack OK id f t a
/-- `MSG_NOFUNDS` -/
def MSG_NOFUNDS (id f a : CInt) : Command := cmd_pack NOFUNDS id f (-1) a
/-- `MSG_CONNECT` -/
def MSG_CONNECT (id : CInt) : Command := cmd_pack CONNECT id (-1) (-1) (-1)
/-- `MSG_EXIT` -/
def MSG_EXIT (id : CInt) : Command := cmd_pack EXIT id (-1) (-1) (-1)
/-- `MSG_DEPOSIT` -/
def MSG_DEPOSIT (id t a : CInt) : Command := cmd_pack DEPOSIT id (-1) t a
/-- `MSG_WITHDRAW` -/
def MSG_WITHDRAW (id f a : CInt) : Command := cmd_pack WITHDRAW id f (-1) a
/-- `MSG_TRANSFER` -/
def MSG_TRANSFER (id f t a : CInt) : Command := cmd_pack TRANSFER id f t a
/-- `MSG_BALANCE` -/
def MSG_BALANCE (id f : CInt) : Command := cmd_pack BALANCE id f (-1) (-1)
/-- `MSG_ACCUNKN` -/
def MSG_ACCUNKN (id t : CInt) : Command := cmd_pack ACCUNKN id (-1) t (-1)

/-! ## The two directions are inverse

Both follow from what one bit of [`unpack_int`] is: bit `i` comes from byte
`3 - i / 8`, since the other three terms are shifted past it or end below it. -/

theorem getLsbD_unpack_int (b : Bytes4) (i : ℕ) :
    (unpack_int b).getLsbD i
      = if i < 8 then b.b3.getLsbD i
        else if i < 16 then b.b2.getLsbD (i - 8)
        else if i < 24 then b.b1.getLsbD (i - 16)
        else b.b0.getLsbD (i - 24) := by
  have hpast : ∀ (x : Byte) (j : ℕ), 8 ≤ j → x.getLsbD j = false :=
    fun x j hj => BitVec.getLsbD_of_ge x j hj
  simp only [unpack_int, BitVec.getLsbD_or, BitVec.getLsbD_shiftLeft, BitVec.getLsbD_setWidth]
  rcases (by omega : i < 8 ∨ (8 ≤ i ∧ i < 16) ∨ (16 ≤ i ∧ i < 24) ∨ 24 ≤ i) with h | h | h | h
  · grind
  · grind
  · grind
  · grind

/-- Reading back a packed integer. -/
@[simp] theorem unpack_pack_int (x : CInt) : unpack_int (pack_int x) = x := by
  apply BitVec.eq_of_getLsbD_eq
  intro i hi
  rw [getLsbD_unpack_int]
  simp only [pack_int, BitVec.getLsbD_setWidth, BitVec.getLsbD_ushiftRight]
  grind

/-- Packing back an integer that was read. -/
@[simp] theorem pack_unpack_int (b : Bytes4) : pack_int (unpack_int b) = b := by
  ext : 1 <;>
  · apply BitVec.eq_of_getLsbD_eq
    intro i hi
    simp only [pack_int, BitVec.getLsbD_setWidth, BitVec.getLsbD_ushiftRight, getLsbD_unpack_int]
    grind

/-- The five fields survive the trip through a message. -/
@[simp] theorem cmd_unpack_pack (c : Byte) (i f t a : CInt) :
    cmd_unpack (cmd_pack c i f t a) = ⟨c, i, f, t, a⟩ := by
  simp only [cmd_unpack, cmd_pack, unpack_pack_int]

/-- A message is determined by its five fields. -/
theorem cmd_pack_unpack (cmd : Command) :
    cmd_pack (cmd_unpack cmd).c (cmd_unpack cmd).i (cmd_unpack cmd).f (cmd_unpack cmd).t
      (cmd_unpack cmd).a = cmd := by
  simp only [cmd_unpack, cmd_pack, pack_unpack_int]

theorem cmd_unpack_injective : Function.Injective cmd_unpack := by
  intro x y h
  rw [← cmd_pack_unpack x, ← cmd_pack_unpack y, h]

end ProjectsInC.BankAtm
