import Twd.ParseAddr.ParseAddr

/-!
# Host and port are split exactly

The last colon ends the host and starts the port, so the strings handed to `getaddrinfo` can be read
off the string, and no offset that the code computes from it leaves the array.
-/

namespace Twd

open Chars

variable {getaddrinfo : GetAddrInfo} {atype : TwdIp} {taddr tport : List UInt8}

/-- The result of a lookup of `taddr` and `tport`. -/
def lookupResult (getaddrinfo : GetAddrInfo) (atype : TwdIp) (taddr tport : List UInt8) :
    AddrPort :=
  match getaddrinfo taddr tport (addrPortHints atype) with
  | .ok addr => ⟨0, some (taddr, tport), some addr⟩
  | .error _ => ⟨eaddrnotavail, some (taddr, tport), none⟩

@[simp] theorem lookupResult_lookup :
    (lookupResult getaddrinfo atype taddr tport).lookup = some (taddr, tport) := by
  unfold lookupResult
  split <;> rfl

theorem lookupResult_copied {addr : List UInt8}
    (h : (lookupResult getaddrinfo atype taddr tport).copied = some addr) :
    getaddrinfo taddr tport (addrPortHints atype) = .ok addr := by
  unfold lookupResult at h
  cases hres : getaddrinfo taddr tport (addrPortHints atype) with
  | ok a =>
    rw [hres] at h
    exact congrArg _ (Option.some.inj h)
  | error e =>
    rw [hres] at h
    cases h

theorem lookupAddrPort_eq {ipaddr : List UInt8} {i j : Int}
    (hi : stringAt ipaddr i = some taddr) (hj : stringAt ipaddr j = some tport) :
    lookupAddrPort getaddrinfo atype ipaddr i j =
      some (lookupResult getaddrinfo atype taddr tport) := by
  simp only [lookupAddrPort, hi, hj, lookupResult, Option.bind_eq_bind, Option.bind_some]
  cases getaddrinfo taddr tport (addrPortHints atype) with
  | ok addr => rfl
  | error e => rfl

section Cases

variable {s : CString}

theorem toAddrPort_no_colon (h : colon ∉ s.bytes) :
    toAddrPort getaddrinfo s atype = some ⟨einval, none, none⟩ := by
  have hnone : memrchr (s.bytes ++ [0]) colon s.bytes.length = none :=
    memrchr_eq_none (by rwa [List.take_left])
  simp only [toAddrPort, hnone]

theorem put_colon {pre : List UInt8} (hs : s.bytes = pre ++ colon :: tport) :
    put (s.bytes ++ [0]) pre.length 0 = some (pre ++ 0 :: (tport ++ [0])) := by
  rw [hs, List.append_assoc, List.cons_append]
  exact put_append

theorem memrchr_colon {pre : List UInt8} (hs : s.bytes = pre ++ colon :: tport)
    (hport : colon ∉ tport) :
    memrchr (s.bytes ++ [0]) colon s.bytes.length = some pre.length := by
  rw [hs]
  exact memrchr_append hport

/-- The port, whatever stands before it. -/
theorem stringAt_port (pre : List UInt8) (hport : 0 ∉ tport) :
    stringAt (pre ++ 0 :: (tport ++ [0])) (pre.length + 1) = some tport := by
  have hmid := stringAt_append (pre ++ [0]) [] hport
  simpa using hmid

theorem toAddrPort_plain (hs : s.bytes = taddr ++ colon :: tport) (hport : colon ∉ tport)
    (hopen : s.bytes.head? ≠ some bracketOpen) :
    toAddrPort getaddrinfo s atype = some (lookupResult getaddrinfo atype taddr tport) := by
  have hfree := s.nul_free
  rw [hs] at hfree
  simp only [List.mem_append, List.mem_cons, not_or] at hfree
  have hhost : stringAt (taddr ++ 0 :: (tport ++ [0])) 0 = some taddr :=
    stringAt_append [] _ hfree.1
  have hfirst : ∃ b, get (taddr ++ 0 :: (tport ++ [0])) 0 = some b ∧ b ≠ bracketOpen := by
    cases taddr with
    | nil => exact ⟨0, rfl, by decide⟩
    | cons b taddr =>
      refine ⟨b, rfl, fun hb => hopen ?_⟩
      rw [hs, hb]
      rfl
  obtain ⟨b, hget, hb⟩ := hfirst
  simp only [toAddrPort, memrchr_colon hs hport, put_colon hs, hget, Option.bind_eq_bind,
    Option.bind_some, if_neg hb]
  exact lookupAddrPort_eq hhost (stringAt_port taddr hfree.2.2)

theorem tport_sub_two (pre : List UInt8) (c : UInt8) :
    ((pre ++ [c]).length : Int) + 1 - 2 = pre.length := by
  rw [List.length_append, List.length_singleton]
  omega

theorem get_head {pre post : List UInt8} {b c : UInt8}
    (h : (pre ++ c :: post).head? = some b) (rest : List UInt8) :
    get (pre ++ c :: rest) 0 = some b := by
  cases pre with
  | nil => exact h
  | cons a pre => exact h

/-- A first bracket that is not closed before the last colon. -/
theorem toAddrPort_unclosed {pre : List UInt8} {c : UInt8}
    (hs : s.bytes = pre ++ c :: colon :: tport) (hport : colon ∉ tport)
    (hopen : s.bytes.head? = some bracketOpen) (hc : c ≠ bracketClose) :
    toAddrPort getaddrinfo s atype = some ⟨einval, none, none⟩ := by
  have hs' : s.bytes = (pre ++ [c]) ++ colon :: tport := by rw [hs, List.append_cons]
  have harray : (pre ++ [c]) ++ 0 :: (tport ++ [0]) = pre ++ c :: 0 :: (tport ++ [0]) :=
    (List.append_cons ..).symm
  have hfirst := get_head (hs ▸ hopen) (0 :: (tport ++ [0]))
  have hlast : get (pre ++ c :: 0 :: (tport ++ [0])) pre.length = some c := get_append
  simp only [toAddrPort, memrchr_colon hs' hport, put_colon hs', harray, hfirst, tport_sub_two,
    hlast, Option.bind_eq_bind, Option.bind_some, if_true, if_pos hc]

theorem toAddrPort_bracketed
    (hs : s.bytes = bracketOpen :: (taddr ++ bracketClose :: colon :: tport))
    (hport : colon ∉ tport) :
    toAddrPort getaddrinfo s atype = some (lookupResult getaddrinfo atype taddr tport) := by
  have hfree := s.nul_free
  rw [hs] at hfree
  simp only [List.mem_append, List.mem_cons, not_or] at hfree
  have hs' : s.bytes = (bracketOpen :: taddr ++ [bracketClose]) ++ colon :: tport := by
    rw [hs]
    simp
  have harray : (bracketOpen :: taddr ++ [bracketClose]) ++ 0 :: (tport ++ [0]) =
      bracketOpen :: taddr ++ bracketClose :: 0 :: (tport ++ [0]) := by
    simp
  have hfirst : get (bracketOpen :: taddr ++ bracketClose :: 0 :: (tport ++ [0])) 0 =
      some bracketOpen := rfl
  have hlast : get (bracketOpen :: taddr ++ bracketClose :: 0 :: (tport ++ [0]))
      (bracketOpen :: taddr).length = some bracketClose := get_append
  have hput : put (bracketOpen :: taddr ++ bracketClose :: 0 :: (tport ++ [0]))
      (bracketOpen :: taddr).length 0 =
        some (bracketOpen :: taddr ++ 0 :: 0 :: (tport ++ [0])) := put_append
  have hhost : stringAt (bracketOpen :: taddr ++ 0 :: 0 :: (tport ++ [0])) 1 = some taddr :=
    stringAt_append [bracketOpen] _ hfree.2.1
  have hstring : stringAt (bracketOpen :: taddr ++ 0 :: 0 :: (tport ++ [0]))
      ((bracketOpen :: taddr ++ [bracketClose]).length + 1) = some tport := by
    have hmid := stringAt_port (bracketOpen :: taddr ++ [0]) hfree.2.2.2.2
    simpa using hmid
  simp only [toAddrPort, memrchr_colon hs' hport, put_colon hs', harray, hfirst, tport_sub_two,
    hlast, hput, Option.bind_eq_bind, Option.bind_some, if_true, ne_eq, not_true_eq_false,
    if_false]
  exact lookupAddrPort_eq hhost hstring

end Cases

/-- A string that is not rejected is split, in one way. -/
theorem splitsAt_or_rejected (s : List UInt8) :
    Rejected s ∨ ∃ taddr tport, SplitsAt s taddr tport := by
  by_cases hcolon : colon ∈ s
  · obtain ⟨pre, tport, rfl, hport⟩ := exists_last hcolon
    by_cases hopen : (pre ++ colon :: tport).head? = some bracketOpen
    · rcases List.eq_nil_or_concat pre with rfl | ⟨pre, c, rfl⟩
      · exact absurd hopen (by simp; decide)
      · by_cases hc : c = bracketClose
        · subst hc
          cases pre with
          | nil => exact absurd hopen (by simp; decide)
          | cons b taddr =>
            obtain rfl : b = bracketOpen := by simpa using hopen
            refine .inr ⟨taddr, tport, hport, ?_⟩
            rw [if_pos hopen]
            simp
        · exact .inl (.inr ⟨hopen, pre, c, tport, by simp, hport, hc⟩)
    · exact .inr ⟨pre, tport, hport, by rw [if_neg hopen]⟩
  · exact .inl (.inl hcolon)

theorem splitsAt_unique {s a b a' b' : List UInt8} (h : SplitsAt s a b) (h' : SplitsAt s a' b') :
    a' = a ∧ b' = b := by
  obtain ⟨hb, h⟩ := h
  obtain ⟨hb', h'⟩ := h'
  by_cases hopen : s.head? = some bracketOpen
  · rw [if_pos hopen] at h h'
    have heq : (bracketOpen :: a' ++ [bracketClose]) ++ colon :: b' =
        (bracketOpen :: a ++ [bracketClose]) ++ colon :: b := by
      simpa using h'.symm.trans h
    obtain ⟨hpre, hpost⟩ := last_unique heq hb' hb
    exact ⟨by simpa using hpre, hpost⟩
  · rw [if_neg hopen] at h h'
    exact last_unique (h'.symm.trans h) hb' hb

theorem not_splitsAt_of_rejected {s a b : List UInt8} (hr : Rejected s) : ¬ SplitsAt s a b := by
  rintro ⟨hb, h⟩
  rcases hr with hcolon | ⟨hopen, pre, c, tport, hs, hport, hc⟩
  · refine hcolon ?_
    split_ifs at h <;> rw [h] <;> simp
  · rw [if_pos hopen] at h
    have heq : (pre ++ [c]) ++ colon :: tport =
        (bracketOpen :: a ++ [bracketClose]) ++ colon :: b := by
      simpa using hs.symm.trans h
    obtain ⟨hpre, -⟩ := last_unique heq hport hb
    exact hc (List.singleton_inj.mp (List.append_inj' hpre rfl).2)

theorem splitsAt_plain {h p : List UInt8} (hopen : h.head? ≠ some bracketOpen)
    (hp : colon ∉ p) : SplitsAt (h ++ colon :: p) h p := by
  have hhead : (h ++ colon :: p).head? ≠ some bracketOpen := by
    cases h with
    | nil => simp [colon, bracketOpen]
    | cons b h => exact hopen
  exact ⟨hp, by rw [if_neg hhead]⟩

theorem splitsAt_bracketed {h p : List UInt8} (hp : colon ∉ p) :
    SplitsAt (bracketOpen :: (h ++ bracketClose :: colon :: p)) h p :=
  ⟨hp, by simp⟩

theorem toAddrPort_of_splitsAt {s : CString} (h : SplitsAt s.bytes taddr tport) :
    toAddrPort getaddrinfo s atype = some (lookupResult getaddrinfo atype taddr tport) := by
  obtain ⟨hport, hs⟩ := h
  split_ifs at hs with hopen
  · exact toAddrPort_bracketed hs hport
  · exact toAddrPort_plain hs hport hopen

theorem toAddrPort_of_rejected {s : CString} (h : Rejected s.bytes) :
    toAddrPort getaddrinfo s atype = some ⟨einval, none, none⟩ := by
  rcases h with hcolon | ⟨hopen, pre, c, tport, hs, hport, hc⟩
  · exact toAddrPort_no_colon hcolon
  · exact toAddrPort_unclosed hs hport hopen hc

/-- **Host and port are split exactly**: for every string the function stays within its array,
rejects what cannot be split, looks up the only two parts otherwise, and writes the address that the
lookup has found. -/
theorem toAddrPort_splits (getaddrinfo : GetAddrInfo) (s : CString) (atype : TwdIp) :
    ∃ r, toAddrPort getaddrinfo s atype = some r ∧ SplitsExactly getaddrinfo atype s.bytes r := by
  rcases splitsAt_or_rejected s.bytes with hr | ⟨taddr, tport, hsplit⟩
  · have hno : ∀ a b, ¬ SplitsAt s.bytes a b := fun a b => not_splitsAt_of_rejected hr
    refine ⟨_, toAddrPort_of_rejected hr, ?_⟩
    constructor
    case rejected => exact ⟨fun _ => hr, fun _ => ⟨rfl, rfl⟩⟩
    case lookup => exact fun hnr => absurd hr hnr
    case plain => exact fun h p _ hopen hp hs => absurd (hs ▸ splitsAt_plain hopen hp) (hno h p)
    case bracketed => exact fun h p hp hs => absurd (hs ▸ splitsAt_bracketed hp) (hno h p)
    case copied => simp
    case found => simp
    case failed => simp
  · have hnr : ¬ Rejected s.bytes := fun hr => not_splitsAt_of_rejected hr hsplit
    have hpair : ∀ a b, SplitsAt s.bytes a b →
        (lookupResult getaddrinfo atype taddr tport).lookup = some (a, b) := by
      intro a b hab
      obtain ⟨rfl, rfl⟩ := splitsAt_unique hsplit hab
      exact lookupResult_lookup
    refine ⟨_, toAddrPort_of_splitsAt hsplit, ?_⟩
    constructor
    case rejected => simp [hnr]
    case lookup =>
      exact fun _ => ⟨taddr, tport, lookupResult_lookup, hsplit, fun a b => splitsAt_unique hsplit⟩
    case plain => exact fun h p _ hopen hp hs => hpair h p (hs ▸ splitsAt_plain hopen hp)
    case bracketed => exact fun h p hp hs => hpair h p (hs ▸ splitsAt_bracketed hp)
    case copied =>
      exact fun addr haddr => ⟨taddr, tport, lookupResult_lookup, lookupResult_copied haddr⟩
    case found =>
      intro a b addr hab haddr
      obtain ⟨rfl, rfl⟩ := Prod.mk.inj (Option.some.inj (lookupResult_lookup.symm.trans hab))
      rw [lookupResult, haddr]
      exact ⟨rfl, rfl⟩
    case failed =>
      intro a b err hab herr
      obtain ⟨rfl, rfl⟩ := Prod.mk.inj (Option.some.inj (lookupResult_lookup.symm.trans hab))
      rw [lookupResult, herr]
      exact ⟨rfl, rfl⟩

end Twd
