/-!
# UTF-8

Bytes are decoded to characters. What is refused is the longest beginning of a well-formed sequence
that is not continued as it should be, or a byte that begins none.
-/

namespace LoxLang.Utf8

/-- Bytes that are not UTF-8. -/
structure Malformed where
  /-- Where the bad sequence begins. -/
  index : Nat
  /-- How many bytes belong to it; none if the input ends inside it. -/
  length : Option Nat
  deriving DecidableEq, Repr

def Malformed.message (m : Malformed) : String :=
  match m.length with
  | some n =>
    "invalid utf-8 sequence of " ++ toString n ++ " bytes from index " ++ toString m.index
  | none => "incomplete utf-8 byte sequence from index " ++ toString m.index

/-- A sequence of which some bytes are read. -/
structure Pending where
  /-- Where the sequence begins. -/
  start : Nat
  /-- How many bytes are read. -/
  taken : Nat
  /-- How many bytes are missing. -/
  missing : Nat
  /-- The least and the greatest value of the next byte. -/
  low : Nat
  high : Nat
  /-- The bits read. -/
  bits : Nat

/-- The sequence that a byte above 127 begins at an index. -/
def begin? (index byte : Nat) : Option Pending :=
  if 0xC2 ≤ byte ∧ byte ≤ 0xDF then some ⟨index, 1, 1, 0x80, 0xBF, byte - 0xC0⟩
  else if byte = 0xE0 then some ⟨index, 1, 2, 0xA0, 0xBF, 0⟩
  else if byte = 0xED then some ⟨index, 1, 2, 0x80, 0x9F, byte - 0xE0⟩
  else if 0xE1 ≤ byte ∧ byte ≤ 0xEF then some ⟨index, 1, 2, 0x80, 0xBF, byte - 0xE0⟩
  else if byte = 0xF0 then some ⟨index, 1, 3, 0x90, 0xBF, 0⟩
  else if 0xF1 ≤ byte ∧ byte ≤ 0xF3 then some ⟨index, 1, 3, 0x80, 0xBF, byte - 0xF0⟩
  else if byte = 0xF4 then some ⟨index, 1, 3, 0x80, 0x8F, byte - 0xF0⟩
  else none

/-- Decodes bytes from an index on. The characters read so far are given last first. -/
def decodeFrom (index : Nat) (pending : Option Pending) (read : List Char) :
    List UInt8 → Except Malformed (List Char)
  | [] =>
    match pending with
    | none => .ok read.reverse
    | some p => .error ⟨p.start, none⟩
  | b :: bs =>
    match pending with
    | none =>
      if b.toNat < 0x80 then decodeFrom (index + 1) none (Char.ofNat b.toNat :: read) bs
      else
        match begin? index b.toNat with
        | some p => decodeFrom (index + 1) (some p) read bs
        | none => .error ⟨index, some 1⟩
    | some p =>
      if p.low ≤ b.toNat ∧ b.toNat ≤ p.high then
        let bits := p.bits * 64 + (b.toNat - 0x80)
        if p.missing = 1 then decodeFrom (index + 1) none (Char.ofNat bits :: read) bs
        else
          decodeFrom (index + 1) (some ⟨p.start, p.taken + 1, p.missing - 1, 0x80, 0xBF, bits⟩)
            read bs
      else .error ⟨p.start, some p.taken⟩

def decode (bytes : List UInt8) : Except Malformed String :=
  match decodeFrom 0 none [] bytes with
  | .ok cs => .ok (.ofList cs)
  | .error m => .error m

end LoxLang.Utf8
