import Twd.Ringbuffer.Proofs.ThreadsStepProofs

/-!
# The two threads: safety of coherent runs

A run in which every step of the writer is coherent is safe. A writer that computes its free space,
or loads its address, while the reader is half-way through pulling the indices back is not.
-/

namespace Twd

theorem threadsInv_init (size : SizeT) (mem : Memory) (hpos : 0 < size.toNat)
    (hlt : 2 * size.toNat < 2 ^ 64) : ThreadsInv (Threads.init size mem) where
  core := ⟨hpos, hlt, by simp [Threads.init, ringbufferInit],
    by simp [Threads.init, ringbufferInit], le_rfl, by simp [Threads.init], by simp [Threads.init],
    by simp [Threads.init]⟩
  reader := ⟨rfl, by simp [Threads.init, ringbufferInit], rfl, rfl⟩
  writer := trivial

theorem threadsInv_step (s : Threads) (a : Action) (s' : Threads) (h : ThreadsInv s)
    (hok : s.Coherent a) (hs : s.step a = some s') : ThreadsInv s' := by
  obtain ⟨hc, hr, hw⟩ := h
  cases a with
  | write src amount =>
    rw [Threads.step] at hs
    split_ifs at hs with hcall
    cases hs
    exact ⟨hc, hr.frame ⟨rfl, rfl, rfl, rfl, rfl, rfl, rfl, rfl, [], by simp⟩ hc.consumed_le,
      hcall.2.2⟩
  | read amount =>
    rw [Threads.step] at hs
    split_ifs at hs with hcall
    cases hs
    rw [ReaderInv, hcall.1] at hr
    exact ⟨hc, ⟨hr.1, hr.2, hr.3, hr.4⟩,
      hw.frame ⟨rfl, rfl, rfl, rfl, rfl, rfl, rfl, le_rfl, le_rfl⟩⟩
  | writer first => exact writerStep_inv ⟨hc, hr, hw⟩ hok hs
  | reader first => exact readerStep_inv ⟨hc, hr, hw⟩ hs

/-- The bytes returned, and how many have been copied out. -/
theorem ReaderInv.got_copied {s : Threads} (h : ReaderInv s) :
    s.hist.got <+: s.hist.sent.map Prod.snd ∧ s.hist.consumed ≤ s.hist.copied := by
  have hat : AtRest s → s.hist.got <+: s.hist.sent.map Prod.snd ∧
      s.hist.consumed ≤ s.hist.copied := fun hr =>
    ⟨hr.got ▸ List.take_prefix .., hr.copied.ge⟩
  have hcop : ∀ len dest, Copied s len dest → s.hist.got <+: s.hist.sent.map Prod.snd ∧
      s.hist.consumed ≤ s.hist.copied := fun len dest hr =>
    ⟨hr.got ▸ List.take_prefix .., by rw [hr.copied]; omega⟩
  have hpend : ∀ dest, Pending s dest → s.hist.got <+: s.hist.sent.map Prod.snd ∧
      s.hist.consumed ≤ s.hist.copied := fun dest hr =>
    ⟨(hr.got_append ▸ List.prefix_append ..).trans (List.take_prefix s.hist.consumed _),
      hr.copied.ge⟩
  unfold ReaderInv at h
  cases hr : s.reader with
  | idle | entry amount => rw [hr] at h; exact hat h
  | gotWidx amount w | gotRidx amount r | address len | copy len off =>
    rw [hr] at h
    exact hat h.1
  | bumpLoad len dest => rw [hr] at h; exact hcop len dest h
  | bumpStore len dest r => rw [hr] at h; exact hcop len dest h.1
  | check dest | wrapLoad dest | wrapSwap dest temp | subLoad dest | subStore dest r =>
    rw [hr] at h
    exact hpend dest h.1

theorem ThreadsInv.safe {s : Threads} (h : ThreadsInv s) : Safe s := by
  have hc := h.core
  obtain ⟨hgot, hcopied⟩ := h.reader.got_copied
  have hfits : ∀ src len off, s.writer = .copy src len off → Fits s src len off := by
    intro src len off hw
    have hwi := h.writer
    rwa [WriterInv, hw] at hwi
  refine ⟨hgot, ?_, fun src len off hw => (hfits src len off hw).inside, ?_⟩
  · intro src len off hw e he i hi
    obtain ⟨k, -, hlap⟩ := (hfits src len off hw).lap
    have hroom := (hfits src len off hw).room
    obtain ⟨j, hj, rfl⟩ := List.mem_iff_getElem.mp he
    rw [List.length_drop] at hj
    have hcell : (s.hist.sent.drop s.hist.copied)[j].1 =
        (s.hist.copied + j) % s.rbuf.size.toNat := by
      have := List.getElem_of_eq hc.cells (i := s.hist.copied + j) (by simpa using by omega)
      simpa using this
    have hoff : (off.toNat + i) % s.rbuf.size.toNat =
        (s.hist.sent.length + i) % s.rbuf.size.toNat := by
      rw [← hlap, Nat.add_right_comm, Nat.add_mul_mod_self_left]
    rw [hcell, hoff]
    exact Mirror.cell_ne (by omega) (by omega)
  · intro len off hr
    have hri := h.reader
    rw [ReaderInv, hr] at hri
    obtain ⟨hrest, hle, rfl⟩ := hri
    have := hrest.ridx_le
    have := hc.sent_le
    omega

/-- **Every coherent run of the two threads is safe**, whatever its length, the size of the ring,
the amounts and the order of the steps. -/
theorem threads_safe (size : SizeT) (hpos : 0 < size.toNat) (hlt : 2 * size.toNat < 2 ^ 64)
    (mem : Memory) (as : List Action) (s : Threads)
    (hok : Machine.Meets Threads.step Threads.Coherent (Threads.init size mem) as)
    (hrun : Machine.run Threads.step (Threads.init size mem) as = some s) : Safe s :=
  (Machine.run_invariant_of_meets threadsInv_step (threadsInv_init size mem hpos hlt) hok hrun).safe

/-- Two bytes are written and read, then another one. The writer's second call starts while the
reader is between the two halves of its first; the reader's second call has to pull both indices
back. -/
def wrapAround : List Action :=
  [.write [7, 8] 2, .read 2] ++ List.replicate 5 (.writer .widx) ++
    List.replicate 4 (.reader .ridx) ++ [.write [9] 1] ++ List.replicate 2 (.reader .ridx) ++
    List.replicate 5 (.writer .ridx) ++ [.reader .widx, .read 1] ++
    List.replicate 11 (.reader .widx)

/-- Two threads pass two bytes and then one more through a ring of two, so that both indices are
pulled back. -/
theorem threads_safe_wrap :
    ∃ as s, Machine.run Threads.step (Threads.init 2 fun _ => 0) as = some s ∧
      s.hist.got = [7, 8, 9] ∧ s.hist.subs = 1 ∧ Safe s := by
  have hrun : (Machine.run Threads.step (Threads.init 2 fun _ => 0) wrapAround).map
      (fun s => (s.hist.got, s.hist.subs)) = some ([7, 8, 9], 1) := by decide +kernel
  obtain ⟨s, hs, hp⟩ := Option.map_eq_some_iff.mp hrun
  exact ⟨wrapAround, s, hs, (Prod.mk.inj hp).1, (Prod.mk.inj hp).2,
    threads_safe 2 (by decide) (by decide) (fun _ => 0) wrapAround s (by decide +kernel) hs⟩

/-- A whole call that writes `n` bytes. -/
def callWrite (n : Nat) : List Action :=
  .write (List.replicate n 0) (BitVec.ofNat 64 n) :: List.replicate 5 (.writer .widx)

/-- The first `steps` steps of a call that reads `n` bytes. -/
def callRead (n steps : Nat) : List Action :=
  .read (BitVec.ofNat 64 n) :: List.replicate steps (.reader .widx)

/-- The reader has moved `ridx` to 7000 and is about to pull `widx` back, when the writer finds the
ring empty and loads 7000 as the offset of 4000 bytes. -/
def overrun : List Action :=
  callWrite 3000 ++ callRead 3000 7 ++ callWrite 4000 ++ callRead 4000 6 ++
    (callWrite 4000).take 4

/-- A run of one writer and one reader on a ring of one page is not always safe. -/
theorem threads_not_safe :
    ¬ ∀ (as : List Action) (s : Threads),
      Machine.run Threads.step (Threads.init 4096 fun _ => 0) as = some s → Safe s := by
  intro h
  have hcopy : (Machine.run Threads.step (Threads.init 4096 fun _ => 0) overrun).map
      (fun s => (s.writer, s.rbuf.size)) =
        some (.copy (List.replicate 4000 0) 4000 7000, 4096) := by decide +kernel
  obtain ⟨s, hs, hp⟩ := Option.map_eq_some_iff.mp hcopy
  obtain ⟨hw, hsize⟩ := Prod.mk.inj hp
  have hin := (h overrun s hs).writer_inside _ _ _ hw
  rw [hsize] at hin
  exact absurd hin (by decide)

end Twd
