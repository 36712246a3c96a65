import Mathlib.Data.List.Basic
import Twd.Bytes.LittleEndian

/-!
# Control messages

The list of control messages of a datagram, as the socket interface of a 64-bit machine lays it out:
each message is a header of 16 bytes (its length with the header, its level, its type) and its data,
padded to a multiple of eight bytes. A buffer is the function that gives its bytes, of which the
first `controllen` belong to the list.
-/

namespace Cmsg

/-- A control message. -/
structure Message where
  level : BitVec 32
  type : BitVec 32
  data : List UInt8
  deriving DecidableEq, Repr

/-- `sizeof(struct cmsghdr)` -/
def hdrSize : Nat := 16

/-- `CMSG_ALIGN` -/
def align (len : Nat) : Nat := (len + 7) / 8 * 8

/-- `CMSG_LEN` -/
def len (size : Nat) : Nat := hdrSize + size

/-- The bytes of a header. -/
def header (level type : BitVec 32) (length : Nat) : List UInt8 :=
  LittleEndian.encode 8 length ++ LittleEndian.encode 4 level.toNat ++
    LittleEndian.encode 4 type.toNat

/-- The bytes of a message, with its padding. -/
def Message.encode (m : Message) : List UInt8 :=
  header m.level m.type (len m.data.length) ++ m.data ++
    List.replicate (align m.data.length - m.data.length) 0

/-- The bytes of a list of messages. -/
def encodeAll (msgs : List Message) : List UInt8 := msgs.flatMap Message.encode

section Buffer

variable (buf : Nat → UInt8) (controllen : Nat)

/-- The `size` bytes at offset `off`. -/
def bytesAt (off size : Nat) : List UInt8 := (List.range size).map fun i => buf (off + i)

/-- The integer of `width` bytes at offset `off`. -/
def field (off width : Nat) : Nat := LittleEndian.decode (bytesAt buf off width)

/-- The member `cmsg_len` of the header at offset `off`. -/
def lenAt (off : Nat) : Nat := field buf off 8

/-- The member `cmsg_level`. -/
def levelAt (off : Nat) : BitVec 32 := BitVec.ofNat 32 (field buf (off + 8) 4)

/-- The member `cmsg_type`. -/
def typeAt (off : Nat) : BitVec 32 := BitVec.ofNat 32 (field buf (off + 12) 4)

/-- The offset of the data, `CMSG_DATA`. -/
def dataAt (off : Nat) : Nat := off + hdrSize

/-- `CMSG_FIRSTHDR` -/
def firsthdr : Option Nat := if hdrSize ≤ controllen then some 0 else none

/-- `CMSG_NXTHDR` -/
def nxthdr (off : Nat) : Option Nat :=
  if lenAt buf off < hdrSize then none
  else
    let next := off + align (lenAt buf off)
    if controllen < next + hdrSize ∨ controllen < next + align (lenAt buf next) then none
    else some next

/-- The headers from `cmsg` on, at most `fuel` of them. -/
def headers : Nat → Option Nat → List Nat
  | 0, _ => []
  | _ + 1, none => []
  | fuel + 1, some off => off :: headers fuel (nxthdr buf controllen off)

/-- The headers that a loop with `CMSG_FIRSTHDR` and `CMSG_NXTHDR` visits. No list has more of them
than bytes. -/
def walk : List Nat := headers buf controllen controllen (firsthdr controllen)

/-- The message whose header is at offset `off`. -/
def messageAt (off : Nat) : Message where
  level := levelAt buf off
  type := typeAt buf off
  data := bytesAt buf (dataAt off) (lenAt buf off - hdrSize)

/-- The messages of the list. -/
def messages : List Message := (walk buf controllen).map (messageAt buf)

end Buffer

variable {buf : Nat → UInt8} {controllen : Nat}

@[simp] theorem length_bytesAt (off size : Nat) : (bytesAt buf off size).length = size := by
  simp [bytesAt]

theorem bytesAt_getD (bs : List UInt8) (d : UInt8) :
    bytesAt (fun i => bs.getD i d) 0 bs.length = bs := by
  apply List.ext_getElem (by simp)
  intro i h1 h2
  simp [bytesAt, h2]

theorem length_data_messageAt (off : Nat) :
    (messageAt buf off).data.length = lenAt buf off - hdrSize := by
  rw [messageAt, length_bytesAt]

/-- A next header lies behind the one before it, and its message within the list. -/
theorem nxthdr_eq_some {off next : Nat} (h : nxthdr buf controllen off = some next) :
    next = off + align (lenAt buf off) ∧ next + align (lenAt buf next) ≤ controllen := by
  by_cases hlen : lenAt buf off < hdrSize
  · rw [nxthdr, if_pos hlen] at h
    cases h
  · rw [nxthdr, if_neg hlen] at h
    by_cases hend : controllen < off + align (lenAt buf off) + hdrSize ∨
        controllen < off + align (lenAt buf off) + align (lenAt buf (off + align (lenAt buf off)))
    · simp only [if_pos hend] at h
      cases h
    · simp only [if_neg hend] at h
      cases h
      exact ⟨rfl, Nat.le_of_not_lt (not_or.mp hend).2⟩

theorem headers_eq_cons {fuel off : Nat} {cmsg : Option Nat} {offs : List Nat}
    (h : headers buf controllen fuel cmsg = off :: offs) :
    cmsg = some off ∧ ∃ fuel', offs = headers buf controllen fuel' (nxthdr buf controllen off) := by
  cases fuel with
  | zero => simp [headers] at h
  | succ fuel =>
    cases cmsg with
    | none => simp [headers] at h
    | some o =>
      rw [headers, List.cons.injEq] at h
      obtain ⟨rfl, rfl⟩ := h
      exact ⟨rfl, fuel, rfl⟩

/-- A list of two messages with an integer each takes at least 48 bytes. -/
theorem le_controllen_of_two {a b : Message} (h : messages buf controllen = [a, b])
    (ha : a.data.length = 4) (hb : b.data.length = 4) : 48 ≤ controllen := by
  obtain ⟨x, l, hwalk, rfl, hl⟩ := List.map_eq_cons_iff.mp h
  obtain ⟨y, l', rfl, rfl, -⟩ := List.map_eq_cons_iff.mp hl
  obtain ⟨-, fuel, hnext⟩ := headers_eq_cons hwalk
  obtain ⟨hy, -⟩ := headers_eq_cons hnext.symm
  obtain ⟨hstart, hend⟩ := nxthdr_eq_some hy
  rw [length_data_messageAt, hdrSize] at ha hb
  have hx : align (lenAt buf x) = 24 := by rw [show lenAt buf x = 20 by omega]; rfl
  have hy : align (lenAt buf y) = 24 := by rw [show lenAt buf y = 20 by omega]; rfl
  omega

end Cmsg
