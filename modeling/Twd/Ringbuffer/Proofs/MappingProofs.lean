import Twd.Ringbuffer.Mapping
import Twd.Ringbuffer.Proofs.QueueProofs

/-!
# What a ring leaves behind

`ringbuffer_init` leaves a ring whose bytes are mirrored, or nothing at all, as far as `unlink`,
`close` and `munmap` succeed. On such a ring the functions do with the addresses what they do with
the mirrored cells, and `ringbuffer_destroy` leaves the system as it was before.
-/

namespace Twd

open AddressSpace

variable {s s' : System} {buff buff' : MappedRing} {file : Nat}

/-! ## `ringbuffer_init` -/

theorem toNat_mul_two {size : SizeT} (h : size.toNat < 2 ^ 63) :
    (size * 2).toNat = 2 * size.toNat := by
  rw [BitVec.toNat_mul, Nat.mul_comm]
  exact Nat.mod_eq_of_lt (by simp; omega)

/-- What has been mapped in a range that was free is gone once the range has been unmapped. -/
theorem munmap_mapped {space space' : Nat → Option Cell} {base len : Nat}
    (hfree : Free space base len)
    (h : ∀ a, ¬ (base ≤ a ∧ a < base + len) → space' a = space a) :
    unmapRange space' base len = space := by
  rw [unmapRange_congr h, unmapRange_of_free hfree]

namespace System

variable {fh address len : Nat}

@[simp] theorem close_linked (answer : Except (Nat × Bool) Unit) :
    (s.close fh answer).linked = s.linked := by
  rcases answer with ⟨e, stays⟩ | ⟨⟩ <;> rfl

@[simp] theorem close_fileSize (answer : Except (Nat × Bool) Unit) :
    (s.close fh answer).fileSize = s.fileSize := by
  rcases answer with ⟨e, stays⟩ | ⟨⟩ <;> rfl

@[simp] theorem close_content (answer : Except (Nat × Bool) Unit) :
    (s.close fh answer).content = s.content := by
  rcases answer with ⟨e, stays⟩ | ⟨⟩ <;> rfl

@[simp] theorem close_space (answer : Except (Nat × Bool) Unit) :
    (s.close fh answer).space = s.space := by
  rcases answer with ⟨e, stays⟩ | ⟨⟩ <;> rfl

/-- A `close` that fails says why, one that succeeds leaves the reason of an earlier call. -/
theorem close_errno {answer : Except (Nat × Bool) Unit} (h : s.errno ≠ 0)
    (hanswer : ∀ e stays, answer = .error (e, stays) → e ≠ 0) : (s.close fh answer).errno ≠ 0 := by
  rcases answer with ⟨e, stays⟩ | ⟨⟩
  · exact hanswer e stays rfl
  · exact h

@[simp] theorem munmap_fds (answer : Except Nat Unit) :
    (s.munmap address len answer).fds = s.fds := by
  rcases answer with e | ⟨⟩ <;> rfl

@[simp] theorem munmap_linked (answer : Except Nat Unit) :
    (s.munmap address len answer).linked = s.linked := by
  rcases answer with e | ⟨⟩ <;> rfl

@[simp] theorem munmap_content (answer : Except Nat Unit) :
    (s.munmap address len answer).content = s.content := by
  rcases answer with e | ⟨⟩ <;> rfl

theorem munmap_errno {answer : Except Nat Unit} (h : s.errno ≠ 0)
    (hanswer : ∀ e, answer = .error e → e ≠ 0) : (s.munmap address len answer).errno ≠ 0 := by
  rcases answer with e | ⟨⟩
  · exact hanswer e rfl
  · exact h

end System

/-- A file is open, and nothing else has been opened, named or written since `s`. -/
structure Opened (ans : InitAnswers) (s : System) (fh file : Nat) (s' : System) : Prop where
  fds : s'.fds = Function.update s.fds fh (some file)
  linked : s'.linked = ans.linkedLeft s.linked
  others : ∀ c, c.1 ≠ file → s'.content c = s.content c

/-- The first two calls of `ringbuffer_init`. -/
theorem opened_unlink {ans : InitAnswers} {fh : Nat} (hmkstemp : ans.mkstemp = .ok (fh, file))
    (hlinked : s.linked file = false) :
    Opened ans s fh file (((s.mkstemp (.ok (fh, file))).2).unlink fh ans.unlink) ∧
      (((s.mkstemp (.ok (fh, file))).2).unlink fh ans.unlink).space = s.space := by
  cases hunlink : ans.unlink with
  | error e =>
    refine ⟨⟨rfl, ?_, fun _ _ => rfl⟩, rfl⟩
    simp only [InitAnswers.linkedLeft, hmkstemp, hunlink]
    rfl
  | ok u =>
    simp only [System.mkstemp, System.unlink, Function.update_self, and_true]
    refine ⟨rfl, ?_, fun _ _ => rfl⟩
    simp only [InitAnswers.linkedLeft, hmkstemp, hunlink]
    rw [Function.update_idem, ← hlinked, Function.update_eq_self]

namespace Opened

variable {ans : InitAnswers} {fh : Nat} {s1 s2 : System}

/-- What follows `close` in every case. -/
theorem close_fds (h : Opened ans s fh file s1) (hmkstemp : ans.mkstemp = .ok (fh, file))
    (hfd : s.fds fh = none) : (s1.close fh ans.close).fds = ans.fdsLeft s.fds := by
  have hclosed : Function.update s1.fds fh none = s.fds := by
    rw [h.fds, Function.update_idem, ← hfd, Function.update_eq_self]
  unfold InitAnswers.fdsLeft System.close
  rw [hmkstemp]
  rcases hclose : ans.close with ⟨e, stays⟩ | ⟨⟩
  · cases stays with
    | false => exact hclosed
    | true => exact h.fds
  · exact hclosed

theorem of_eq (h : Opened ans s fh file s1) (hfds : s2.fds = s1.fds)
    (hlinked : s2.linked = s1.linked) (hcontent : ∀ c, c.1 ≠ file → s2.content c = s1.content c) :
    Opened ans s fh file s2 where
  fds := hfds.trans h.fds
  linked := hlinked.trans h.linked
  others c hc := (hcontent c hc).trans (h.others c hc)

/-- An error after the file has been opened. -/
theorem initialised {size : SizeT} {rc : Nat} (h : Opened ans s fh file s1)
    (hmkstemp : ans.mkstemp = .ok (fh, file)) (hfd : s.fds fh = none) (hrc : rc ≠ 0)
    (hfail : ¬ ans.Succeed)
    (hspace : s1.space = s.space ∨ ∃ address e, ans.mmap = .ok address ∧ ans.munmap = .error e ∧
      ∀ a, ¬ (address ≤ a ∧ a < address + 2 * size.toNat) → s1.space a = s.space a) :
    Initialised ans s size rc buff (s1.close fh ans.close) where
  fds := h.close_fds hmkstemp hfd
  linked := (System.close_linked _).trans h.linked
  succeed := iff_of_false hrc hfail
  failed _ := by rwa [System.close_space]
  rbuf hok := absurd hok hrc
  mirrored hok := absurd hok hrc
  destroyed hok := absurd hok hrc
  others c hc := by
    rw [System.close_content]
    refine h.others c ?_
    rintro rfl
    exact hc (by rw [hmkstemp]; rfl)

/-- The range is given back when the file cannot be mapped, unless `munmap` fails. -/
theorem munmap_space {size : SizeT} {a : Nat} (hmmap : ans.mmap = .ok a)
    (hfree : Free s.space a (2 * size.toNat))
    (h : ∀ b, ¬ (a ≤ b ∧ b < a + 2 * size.toNat) → s1.space b = s.space b) :
    (s1.munmap a (2 * size.toNat) ans.munmap).space = s.space ∨
      ∃ address e, ans.mmap = .ok address ∧ ans.munmap = .error e ∧
        ∀ b, ¬ (address ≤ b ∧ b < address + 2 * size.toNat) →
          (s1.munmap a (2 * size.toNat) ans.munmap).space b = s.space b := by
  cases hmunmap : ans.munmap with
  | ok u => exact .inl (munmap_mapped hfree h)
  | error e => exact .inr ⟨a, e, hmmap, rfl, h⟩

end Opened

/-- However the calls of the system turn out, no descriptor, file name or mapping stays but what
`close`, `unlink` and `munmap` leave. -/
theorem ringbufferMap_initialised {pageSize : Nat} {ans : InitAnswers} {size : SizeT} {rc : Nat}
    (hans : ans.Kept s size)
    (h : ringbufferMap pageSize ans s buff size = some (rc, buff', s')) :
    Initialised ans s size rc buff' s' := by
  unfold ringbufferMap at h
  split_ifs at h with hassert
  cases hmkstemp : ans.mkstemp with
  | error e =>
    have hfail : ¬ ans.Succeed := fun hs => by
      obtain ⟨p, hp⟩ := hs.mkstemp
      cases hmkstemp.symm.trans hp
    rw [hmkstemp] at h
    cases h
    refine ⟨?_, ?_, iff_of_false (hans.mkstemp_errno e hmkstemp) hfail, fun _ => .inl rfl, ?_, ?_, ?_,
      fun _ _ => rfl⟩
    · simp only [InitAnswers.fdsLeft, hmkstemp]
    · simp only [InitAnswers.linkedLeft, hmkstemp]
    all_goals exact fun hok => absurd hok (hans.mkstemp_errno e hmkstemp)
  | ok p =>
    obtain ⟨fh, file⟩ := p
    obtain ⟨hfd, hlinked⟩ := hans.descriptor fh file hmkstemp
    obtain ⟨hopened, hspace⟩ := opened_unlink (s := s) hmkstemp hlinked
    rw [hmkstemp] at h
    have hmk : s.mkstemp (.ok (fh, file)) = (some fh, (s.mkstemp (.ok (fh, file))).2) := rfl
    rw [hmk] at h
    dsimp only at h
    generalize ((s.mkstemp (.ok (fh, file))).2).unlink fh ans.unlink = s1 at h hopened hspace
    cases hftruncate : ans.ftruncate with
    | error e =>
      have hfail : ¬ ans.Succeed := fun hs => by cases hftruncate.symm.trans hs.ftruncate
      simp only [hftruncate, System.ftruncate, Option.some.injEq, Prod.mk.injEq] at h
      obtain ⟨rfl, rfl, rfl⟩ := h
      refine Opened.initialised ?_ hmkstemp hfd (System.close_errno ?_ hans.close_errno) hfail
        (.inl hspace)
      · exact hopened.of_eq rfl rfl fun _ _ => rfl
      · exact hans.ftruncate_errno e hftruncate
    | ok u =>
      have hothers : ∀ c : Nat × Nat, c.1 ≠ file →
          (if c.1 = file then 0 else s1.content c) = s1.content c := fun c hc => if_neg hc
      simp only [hftruncate, System.ftruncate, hopened.fds, Function.update_self] at h
      cases hmmap : ans.mmap with
      | error e =>
        have hfail : ¬ ans.Succeed := fun hs => by
          obtain ⟨a, ha⟩ := hs.mmap
          cases hmmap.symm.trans ha
        simp only [hmmap, System.mmapAnonymous, if_pos, Option.some.injEq, Prod.mk.injEq] at h
        obtain ⟨rfl, rfl, rfl⟩ := h
        refine Opened.initialised ?_ hmkstemp hfd (System.close_errno ?_ hans.close_errno) hfail
          (.inl hspace)
        · exact hopened.of_eq hopened.fds.symm rfl hothers
        · exact hans.mmap_errno e hmmap
      | ok a =>
        obtain ⟨hend, hfree⟩ := hans.range a hmmap
        have hsize := hans.length hftruncate
        have hne : a ≠ System.mapFailed := by omega
        simp only [hmmap, System.mmapAnonymous, if_neg hne] at h
        rw [toNat_mul_two hsize] at h hend hfree
        have hreserved : ∀ b, ¬ (a ≤ b ∧ b < a + 2 * size.toNat) →
            mapRange s1.space a (2 * size.toNat) (fun _ => Cell.reserved) b = s.space b :=
          fun b hb => (mapRange_of_not_mem hb).trans (congrFun hspace b)
        cases hfirst : ans.mapFirst with
        | error e =>
          have hfail : ¬ ans.Succeed := fun hs => by cases hfirst.symm.trans hs.mapFirst
          simp only [hfirst, System.mmapFixed, if_pos hne.symm, Option.some.injEq,
            Prod.mk.injEq] at h
          obtain ⟨rfl, rfl, rfl⟩ := h
          refine (hopened.of_eq ?_ ?_ ?_).initialised hmkstemp hfd (by decide) hfail
            (Opened.munmap_space hmmap hfree hreserved)
          · rw [System.munmap_fds, hopened.fds]
          · rw [System.munmap_linked]
          · rw [System.munmap_content]
            exact hothers
        | ok u =>
          have hne' : System.mapFailed ≠ a + size.toNat := by omega
          simp only [hfirst, System.mmapFixed, Function.update_self, ne_eq, not_true_eq_false,
            if_false] at h
          have hmapped : ∀ b, ¬ (a ≤ b ∧ b < a + 2 * size.toNat) →
              mapRange (mapRange s1.space a (2 * size.toNat) fun _ => .reserved) a size.toNat
                (.file file) b = s.space b := by
            intro b hb
            rw [mapRange_of_not_mem (by omega), hreserved b hb]
          cases hsecond : ans.mapSecond with
          | error e =>
            have hfail : ¬ ans.Succeed := fun hs => by cases hsecond.symm.trans hs.mapSecond
            simp only [hsecond, if_pos hne', Option.some.injEq, Prod.mk.injEq] at h
            obtain ⟨rfl, rfl, rfl⟩ := h
            refine (hopened.of_eq ?_ ?_ ?_).initialised hmkstemp hfd ?_ hfail
              (Opened.munmap_space hmmap hfree hmapped)
            · rw [System.munmap_fds, hopened.fds]
            · rw [System.munmap_linked]
            · rw [System.munmap_content]
              exact hothers
            · exact System.close_errno (System.munmap_errno (hans.mapSecond_errno e hsecond)
                hans.munmap_errno) hans.close_errno
          | ok u =>
            simp only [hsecond, not_true_eq_false, if_false, Option.some.injEq, Prod.mk.injEq] at h
            obtain ⟨rfl, rfl, rfl⟩ := h
            have hmem : ans.mkstemp.toOption.map Prod.snd = some file := by rw [hmkstemp]; rfl
            refine ⟨Opened.close_fds ?_ hmkstemp hfd, (System.close_linked _).trans hopened.linked,
              iff_of_true rfl ⟨⟨_, hmkstemp⟩, hftruncate, ⟨a, hmmap⟩, hfirst, hsecond⟩,
              fun h => absurd rfl h, fun _ => ⟨rfl, by omega⟩, ?_, ?_, ?_⟩
            · exact hopened.of_eq hopened.fds.symm rfl hothers
            · intro _
              refine ⟨file, hmem, ⟨?_, ?_⟩, fun off _ => ?_⟩
              · rw [System.close_fileSize]
                exact Function.update_self ..
              · rw [System.close_space]
                exact repeats_mapRange_twice
              · rw [System.close_content]
                exact if_pos rfl
            · intro _
              rw [System.close_space]
              change unmapRange (mapRange _ (a + size.toNat) size.toNat _) a _ = s.space
              refine munmap_mapped hfree fun b hb => ?_
              rw [mapRange_of_not_mem (by omega), hmapped b hb]
            · intro c hc
              rw [System.close_content]
              have hne : c.1 ≠ file := by
                rintro rfl
                exact hc hmem
              exact (hothers c hne).trans (hopened.others c hne)

/-- A system in which nothing is open or mapped, and a file of another process. -/
def System.fresh : System where
  fds _ := none
  linked _ := false
  fileSize _ := 0
  content _ := 0
  space _ := none
  errno := 0

theorem InitAnswers.kept_fresh :
    Kept ⟨.ok (3, 7), .ok (), .ok (), .ok 65536, .ok (), .ok (), .ok (), .ok ()⟩ .fresh 4096 where
  descriptor _ _ _ := ⟨rfl, rfl⟩
  length _ := by decide
  range address haddress := by
    cases haddress
    exact ⟨by decide, fun _ _ => rfl⟩
  mkstemp_errno _ he := by cases he
  ftruncate_errno _ he := by cases he
  mmap_errno _ he := by cases he
  mapSecond_errno _ he := by cases he
  munmap_errno _ he := by cases he
  close_errno _ _ he := by cases he

/-! ## Copies to and from the ring -/

/-- Only the bytes of a file have changed. -/
structure SameBut (file : Nat) (s s' : System) : Prop where
  fds : s'.fds = s.fds
  linked : s'.linked = s.linked
  fileSize : s'.fileSize = s.fileSize
  space : s'.space = s.space
  content : ∀ c, c.1 ≠ file → s'.content c = s.content c

theorem SameBut.refl (file : Nat) (s : System) : SameBut file s s :=
  ⟨rfl, rfl, rfl, rfl, fun _ _ => rfl⟩

theorem SameBut.trans {s'' : System} (h : SameBut file s s') (h' : SameBut file s' s'') :
    SameBut file s s'' :=
  ⟨h'.fds.trans h.fds, h'.linked.trans h.linked, h'.fileSize.trans h.fileSize,
    h'.space.trans h.space, fun c hc => (h'.content c hc).trans (h.content c hc)⟩

/-- The bytes of a file. -/
def System.fileBytes (s : System) (file : Nat) : Memory := fun off => s.content (file, off)

namespace MappedRing.Mirrored

theorem bytes (h : buff.Mirrored s file) (hpos : 0 < buff.rbuf.size.toNat) :
    Repeats s.bytes buff.address (2 * buff.rbuf.size.toNat) buff.rbuf.size.toNat (file, ·) := by
  intro i hi
  have hlt : i % buff.rbuf.size.toNat < s.fileSize file :=
    (Nat.mod_lt i hpos).trans_eq h.fileSize.symm
  rw [System.bytes, h.repeats i hi]
  exact if_pos hlt

/-- The ring stays where it is. -/
theorem of_sameBut (h : buff.Mirrored s file) (hs : SameBut file s s') {rbuf : Ringbuffer}
    (hsize : rbuf.size = buff.rbuf.size) : Mirrored { buff with rbuf := rbuf } s' file where
  fileSize := by rw [hs.fileSize, h.fileSize, hsize]
  repeats := by
    rw [hs.space, hsize]
    exact h.repeats

theorem copyIn (h : buff.Mirrored s file) (hpos : 0 < buff.rbuf.size.toNat) {off : SizeT}
    {src : List UInt8} {mem : Memory}
    (hcopy : Twd.copyIn buff.rbuf (s.fileBytes file) off src = some mem) :
    ∃ s', s.copyIn (buff.address + off.toNat) src = some s' ∧ s'.fileBytes file = mem ∧
      SameBut file s s' := by
  unfold Twd.copyIn at hcopy
  split_ifs at hcopy with hfit
  obtain ⟨content, hstore, hmem, hother⟩ := store_repeats (h.bytes hpos)
    (fun _ _ heq => (Prod.mk.inj heq).2) s.content hfit
  refine ⟨{ s with content := content }, ?_, hmem.trans (Option.some.inj hcopy), ?_⟩
  · rw [System.copyIn, hstore]
    rfl
  · refine ⟨rfl, rfl, rfl, rfl, fun c hc => hother c ?_⟩
    rintro o rfl
    exact hc rfl

theorem copyOut (h : buff.Mirrored s file) (hpos : 0 < buff.rbuf.size.toNat) {off len : SizeT}
    {dest : List UInt8}
    (hcopy : Twd.copyOut buff.rbuf (s.fileBytes file) off len = some dest) :
    s.copyOut (buff.address + off.toNat) len.toNat = some dest := by
  unfold Twd.copyOut at hcopy
  split_ifs at hcopy with hfit
  rw [← hcopy]
  exact load_repeats (h.bytes hpos) hfit

end MappedRing.Mirrored

/-! ## The functions -/

section Functions

variable {amount : SizeT}

theorem ringbufferWriteAt_eq (h : buff.Mirrored s file) (hpos : 0 < buff.rbuf.size.toNat)
    {src : List UInt8} {len : SizeT} {rbuf : Ringbuffer} {mem : Memory}
    (hw : ringbufferWrite buff.rbuf (s.fileBytes file) src amount = some (len, rbuf, mem)) :
    ∃ s', ringbufferWriteAt s buff src amount = some (len, { buff with rbuf := rbuf }, s') ∧
      s'.fileBytes file = mem ∧ SameBut file s s' ∧ rbuf.size = buff.rbuf.size := by
  unfold ringbufferWrite at hw
  unfold ringbufferWriteAt
  dsimp only at hw ⊢
  split_ifs at hw ⊢ with hamount hlen
  · obtain ⟨mem', hcopy, hw⟩ := Option.bind_eq_some_iff.mp hw
    obtain ⟨s', hcopy', hmem, hsame⟩ := h.copyIn hpos hcopy
    cases hw
    exact ⟨s', by rw [hcopy']; rfl, hmem, hsame, rfl⟩
  · cases hw
    exact ⟨s, rfl, rfl, .refl file s, rfl⟩

theorem ringbufferReadAt_eq (h : buff.Mirrored s file) (hpos : 0 < buff.rbuf.size.toNat)
    {tries : Nat} {len : SizeT} {dest : List UInt8} {rbuf : Ringbuffer}
    (hr : ringbufferRead tries buff.rbuf (s.fileBytes file) amount = some (len, dest, rbuf)) :
    ringbufferReadAt tries s buff amount = some (len, dest, { buff with rbuf := rbuf }) ∧
      rbuf.size = buff.rbuf.size := by
  unfold ringbufferRead at hr
  unfold ringbufferReadAt
  dsimp only at hr ⊢
  split_ifs at hr ⊢ with hamount hused hwrap
  · obtain ⟨dest', hcopy, hr⟩ := Option.bind_eq_some_iff.mp hr
    obtain ⟨widx, hloop, hr⟩ := Option.bind_eq_some_iff.mp hr
    cases hr
    exact ⟨by rw [h.copyOut hpos hcopy, Option.bind_eq_bind, Option.bind_some, hloop]; rfl, rfl⟩
  · obtain ⟨dest', hcopy, hr⟩ := Option.bind_eq_some_iff.mp hr
    cases hr
    exact ⟨by rw [h.copyOut hpos hcopy]; rfl, rfl⟩
  · cases hr
    exact ⟨rfl, rfl⟩

theorem ringbufferPeekAt_eq (h : buff.Mirrored s file) (hpos : 0 < buff.rbuf.size.toNat)
    {len : SizeT} {dest : List UInt8}
    (hp : ringbufferPeek buff.rbuf (s.fileBytes file) amount = some (len, dest)) :
    ringbufferPeekAt s buff amount = some (len, dest) := by
  unfold ringbufferPeek at hp
  unfold ringbufferPeekAt
  dsimp only at hp ⊢
  split_ifs at hp ⊢ with hamount hused
  · obtain ⟨dest', hcopy, hp⟩ := Option.bind_eq_some_iff.mp hp
    cases hp
    rw [h.copyOut hpos hcopy]
    rfl
  · exact hp

end Functions

/-! ## From the first call to the last -/

/-- The ring at its addresses is the ring over the bytes of the file, and nothing else of the system
has changed since `s0`. -/
structure Sees (s0 : System) (address file : Nat) (s : MappedState) (t : RingState) : Prop where
  mirrored : s.buff.Mirrored s.system file
  size_pos : 0 < s.buff.rbuf.size.toNat
  address_eq : s.buff.address = address
  rbuf : s.buff.rbuf = t.rbuf
  mem : s.system.fileBytes file = t.mem
  results : s.results = t.results
  same : SameBut file s0 s.system

theorem execAt_sees {s0 : System} {address file : Nat} (tries : Nat) (s : MappedState)
    (t : RingState) (c : Call) (t' : RingState) (h : Sees s0 address file s t)
    (hc : c.exec tries t = some t') :
    ∃ s', c.execAt tries s = some s' ∧ Sees s0 address file s' t' := by
  obtain ⟨rbuf, mem, results⟩ := t
  obtain ⟨hm, hpos, haddress, rfl, rfl, rfl, hsame⟩ := h
  cases c with
  | write src amount =>
    obtain ⟨⟨len, rbuf, mem⟩, hw, hc⟩ := Option.bind_eq_some_iff.mp hc
    obtain ⟨system, hw', hmem, hsame', hsize⟩ := ringbufferWriteAt_eq hm hpos hw
    cases hc
    refine ⟨⟨{ s.buff with rbuf := rbuf }, system, s.results ++ [.count len.toNat]⟩, ?_,
      hm.of_sameBut hsame' hsize, hsize ▸ hpos, haddress, rfl, hmem, rfl, hsame.trans hsame'⟩
    rw [Call.execAt, hw']
    rfl
  | read amount =>
    obtain ⟨⟨len, dest, rbuf⟩, hr, hc⟩ := Option.bind_eq_some_iff.mp hc
    obtain ⟨hr', hsize⟩ := ringbufferReadAt_eq hm hpos hr
    cases hc
    refine ⟨⟨{ s.buff with rbuf := rbuf }, s.system, s.results ++ [.bytes len.toNat dest]⟩, ?_,
      hm.of_sameBut (.refl file s.system) hsize, hsize ▸ hpos, haddress, rfl, rfl, rfl, hsame⟩
    rw [Call.execAt, hr']
    rfl
  | peek amount =>
    obtain ⟨⟨len, dest⟩, hp, hc⟩ := Option.bind_eq_some_iff.mp hc
    have hp' := ringbufferPeekAt_eq hm hpos hp
    cases hc
    refine ⟨⟨s.buff, s.system, s.results ++ [.bytes len.toNat dest]⟩, ?_, hm, hpos, haddress, rfl,
      rfl, rfl, hsame⟩
    rw [Call.execAt, hp']
    rfl
  | reset =>
    cases hc
    exact ⟨_, rfl, hm.of_sameBut (.refl file s.system) rfl, hpos, haddress, rfl, rfl, rfl, hsame⟩
  | used =>
    cases hc
    exact ⟨_, rfl, hm, hpos, haddress, rfl, rfl, rfl, hsame⟩
  | avail =>
    cases hc
    exact ⟨_, rfl, hm, hpos, haddress, rfl, rfl, rfl, hsame⟩

/-- **From `ringbuffer_init` to `ringbuffer_destroy`**: either there is no ring, and nothing has
been left, or the calls on the ring do not fault, return what a queue returns, and leave nothing
behind once it has been destroyed; but for what `unlink`, `close` and `munmap` leave when they
fail. -/
theorem ring_lifecycle (pageSize : Nat) (hpage : 0 < pageSize) (ans : InitAnswers) (s : System)
    (buff : MappedRing) (size : SizeT) (hans : ans.Kept s size) (rc : Nat) (buff' : MappedRing)
    (s' : System) (hmap : ringbufferMap pageSize ans s buff size = some (rc, buff', s')) :
    Initialised ans s size rc buff' s' ∧
      (rc = 0 → ∀ tries calls, (∀ c ∈ calls, c.Valid) →
        Serves ans s size buff' s' (tries + 1) calls) := by
  have hinit := ringbufferMap_initialised hans hmap
  refine ⟨hinit, ?_⟩
  rintro rfl tries calls hcalls
  obtain ⟨hrbuf, hlt⟩ := hinit.rbuf rfl
  obtain ⟨file, hfile, hmirrored, -⟩ := hinit.mirrored rfl
  have hpos : 0 < size.toNat := by
    unfold ringbufferMap at hmap
    split_ifs at hmap with hassert
    omega
  have h0 : Sees s' buff'.address file ⟨buff', s', []⟩ (.init size (s'.fileBytes file)) :=
    ⟨hmirrored, hrbuf ▸ hpos, rfl, hrbuf, rfl, rfl, .refl file s'⟩
  obtain ⟨t, hrun, hsim⟩ := run_simulates hpos hlt (s'.fileBytes file) tries hcalls
  obtain ⟨st, hrun', hsees⟩ := Machine.run_refines (execAt_sees (tries + 1)) h0 hrun
  have hsize : st.buff.rbuf.size = size := by
    rw [hsees.rbuf]
    exact BitVec.eq_of_toNat_eq hsim.size
  refine ⟨st, hrun', ?_, rfl, ⟨?_, ?_, ?_, ?_⟩, fun _ => rfl⟩
  · rw [hsees.results, hsim.results]
    rfl
  · exact hsees.same.fds.trans hinit.fds
  · exact hsees.same.linked.trans hinit.linked
  · rw [← hinit.destroyed rfl]
    change unmapRange st.system.space st.buff.address (st.buff.rbuf.size * 2).toNat = _
    rw [hsize, toNat_mul_two (by omega), hsees.address_eq, hsees.same.space]
  · intro c hc
    refine (hsees.same.content c ?_).trans (hinit.others c hc)
    rintro rfl
    exact hc hfile

/-- A ring of one page: three bytes are written and two read, and the ring is unmapped. -/
theorem ring_lifecycle_page :
    ∃ buff s, Serves ⟨.ok (3, 7), .ok (), .ok (), .ok 65536, .ok (), .ok (), .ok (), .ok ()⟩ .fresh
      4096 buff s 1 [.write [1, 2, 3] 3, .read 2, .used] :=
  ⟨_, _, (ring_lifecycle 4096 (by decide) _ .fresh ⟨0, ringbufferInit 0⟩ 4096
    InitAnswers.kept_fresh 0 _ _ rfl).2 rfl 0 _ (by simp [Call.Valid])⟩

end Twd
