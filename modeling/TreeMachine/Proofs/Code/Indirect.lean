import TreeMachine.Proofs.Arena.Access
import TreeMachine.Proofs.Code.Bounds
import TreeMachine.Proofs.Modules.Running

/-! # Indirect access

  Code reads and writes through addresses that it has computed, so every word can turn up as
  an address.  One with the frame bit leads into the frame and any other into the arena.  Both
  are checked with sums that wrap around, but neither an index into the frame, nor an address
  of the arena, nor a length reaches half of the address space, so here no sum wraps.  Main
  statements: for every address and every length an indirect access of an engine reads or
  writes exactly its range if that is there, and otherwise it changes nothing and ends with
  the error for a bad address.
-/

namespace TreeMachine

namespace Code

/-! ### Places -/

/-- An address of the arena has no frame bit. -/
theorem lt_of_unmarked {addr : UInt64} (h : addr &&& frameBit = 0) : addr.toNat < 2 ^ 63 := by
  have hbit : addr.toNat.testBit 63 = false := by
    have hand := congrArg (fun x : UInt64 => x.toNat.testBit 63) h
    simpa [UInt64.toNat_and, testBit_frameBit] using hand
  apply Nat.lt_pow_two_of_testBit
  intro j hj
  by_cases hlast : j = 63
  · rw [hlast, hbit]
  · -- Above bit 63 a word has no bits.
    exact Nat.testBit_lt_two_pow
      (Nat.lt_of_lt_of_le addr.toNat_lt (Nat.pow_le_pow_right (by omega) (by omega)))

/-- What an address refers to. -/
inductive Place where
  /-- A word of the frame. -/
  | frame (index : UInt64)
  /-- A word of the arena. -/
  | arena (addr : Addr)

/-- Where an address leads. -/
def place (addr : UInt64) : Place :=
  if addr &&& frameBit ≠ 0 then .frame (addr ^^^ frameBit) else .arena addr

namespace Place

/-- The error for `n` words that are not there. -/
def badAddress : Place → Nat → RunError
  | frame index, _ => .frameAddress index
  | arena addr, n => .arenaAddress addr n

/-- There are `n` words at the place. -/
def Has (f : Frame) (a : Arena) : Place → Nat → Prop
  | frame index, n => index.toNat + n ≤ f.words.size
  | arena addr, n => 0 < addr.toNat ∧ addr.toNat + n ≤ a.words.size

/-- The words `ws` stand at the place. -/
def Reads (f : Frame) (a : Arena) : Place → List UInt64 → Prop
  | frame index, ws => Stands f.words index.toNat ws
  | arena addr, ws => a.Holds addr ws

/-- The words at the place have become `ws`, and nothing else has changed. -/
def Writes (f : Frame) (a : Arena) (f' : Frame) (a' : Arena) : Place → List UInt64 → Prop
  | frame index, ws => f.Stores f' index.toNat ws ∧ a' = a
  | arena addr, ws => f' = f ∧ a.Rewritten addr ws a'

end Place

/-! ### The frame -/

section Marked

variable {σ : Type} {host : Host σ} {f : Frame} {addr : UInt64} {n : Nat} {ws : List UInt64} {s : σ}

/-- A length added to an index into the frame does not wrap. -/
theorem toNat_index_add (hmark : addr &&& frameBit ≠ 0) (hn : n < 2 ^ 63) :
    ((addr ^^^ frameBit) + UInt64.ofNat n).toNat = (addr ^^^ frameBit).toNat + n := by
  have hfirst := unmarked_lt hmark
  rw [UInt64.toNat_add, UInt64.toNat_ofNat']
  omega

/-- The check of a range of the frame says what it should. -/
theorem frame_check_iff (hmark : addr &&& frameBit ≠ 0)
    (hf : f.words.size ≤ Arena.maxWords.toNat) (hn : n < 2 ^ 63) :
    UInt64.ofNat f.words.size < (addr ^^^ frameBit) + UInt64.ofNat n ↔
      ¬ (addr ^^^ frameBit).toNat + n ≤ f.words.size := by
  have hmax := Arena.maxWords_toNat
  rw [UInt64.lt_iff_toNat_lt, toNat_index_add hmark hn, UInt64.toNat_ofNat',
    Nat.mod_eq_of_lt (by omega), Nat.not_le]

/-- A read in the frame. -/
theorem loadAt_frame (hmark : addr &&& frameBit ≠ 0) (hf : f.words.size ≤ Arena.maxWords.toNat)
    (hn : n < 2 ^ 63) :
    Yields (loadAt host f addr n) s
      (fun ws s' => (addr ^^^ frameBit).toNat + n ≤ f.words.size ∧
        Stands f.words (addr ^^^ frameBit).toNat ws ∧ ws.length = n ∧ s' = s)
      (fun stop s' => ¬ (addr ^^^ frameBit).toNat + n ≤ f.words.size ∧
        stop = .error (.frameAddress (addr ^^^ frameBit)) ∧ s' = s) := by
  have hlast := toNat_index_add hmark hn
  have hcheck := frame_check_iff hmark hf hn
  unfold loadAt
  rw [if_pos hmark, ofInt_natCast]
  dsimp only
  by_cases hin : (addr ^^^ frameBit).toNat + n ≤ f.words.size
  · -- Since the sum is exact, the second check of the range cannot fail.
    have hnot : ¬ (addr ^^^ frameBit) + UInt64.ofNat n < addr ^^^ frameBit := by
      rw [UInt64.lt_iff_toNat_lt, hlast]
      omega
    rw [if_neg (fun hlt => hcheck.1 hlt hin), if_neg hnot, hlast]
    obtain ⟨ws, hlen, hws⟩ := Stands.exists_of_le hin
    rw [← hlen] at hin ⊢
    rw [hws.extract hin]
    exact Yields.pure ⟨hin, hws, rfl, rfl⟩
  · rw [if_pos (hcheck.2 hin)]
    exact Yields.of_error rfl ⟨hin, rfl, rfl⟩

/-- A write in the frame. -/
theorem storeAt_frame (hmark : addr &&& frameBit ≠ 0) (hf : f.words.size ≤ Arena.maxWords.toNat)
    (hlen : ws.length < 2 ^ 63) :
    Yields (storeAt host f addr ws) s
      (fun f' s' => (addr ^^^ frameBit).toNat + ws.length ≤ f.words.size ∧
        f.Stores f' (addr ^^^ frameBit).toNat ws ∧ s' = s)
      (fun stop s' => ¬ (addr ^^^ frameBit).toNat + ws.length ≤ f.words.size ∧
        stop = .error (.frameAddress (addr ^^^ frameBit)) ∧ s' = s) := by
  have hcheck := frame_check_iff hmark hf hlen
  unfold storeAt
  rw [if_pos hmark]
  dsimp only
  by_cases hin : (addr ^^^ frameBit).toNat + ws.length ≤ f.words.size
  · rw [if_neg (fun hlt => hcheck.1 hlt hin)]
    exact Yields.pure ⟨hin, Frame.stores_writeFrom hin, rfl⟩
  · rw [if_pos (hcheck.2 hin)]
    exact Yields.of_error rfl ⟨hin, rfl, rfl⟩

end Marked

end Code

/-! ### The arena -/

namespace Engine

open Code (Frame Host Instr Place Program Run RunError Services Value frameBit loadAt place storeAt)

variable {e : Engine} {addr : UInt64} {n : Nat} {ws : List UInt64}

/-- The engine with another arena. -/
def withArena (e : Engine) (a : Arena) : Engine :=
  { e with image := { e.image with heap := ⟨a, e.image.heap.types⟩ } }

/-- Code is checked as the arena is, with an error in the place of the broken invariant. -/
theorem checkAddress_eq (e : Engine) (addr : UInt64) (n : Nat) :
    checkAddress addr n e = match e.image.heap.arena.check addr (UInt64.ofNat n) with
      | .ok _ => .ok () e
      | .error _ => .error (.error (.arenaAddress addr n)) e := by
  have hcount : ¬ (n : Int) < 0 := by omega
  unfold checkAddress Arena.check
  rw [← Code.ofInt_natCast]
  show (if addr = 0 ∨ (n : Int) < 0 ∨ e.image.heap.arena.limit < addr + UInt64.ofInt n then
    Code.stop (.arenaAddress addr n) else pure () : Run Engine Unit) e = _
  simp only [hcount, false_or]
  split <;> rfl

/-- What stops code at a range that is not in the arena. -/
def memoryStop (e : Engine) (addr : UInt64) (n : Nat) : Stop RunError :=
  if e.image.heap.arena.Around addr (UInt64.ofNat n) then .fault .outOfBounds
  else .error (.arenaAddress addr n)

/-- An access of the arena, checked once more for code. -/
theorem access_yields {α : Type} (hs : e.image.heap.arena.Sized) {x : EStateM Fault Arena α}
    {Q : α → Arena → Prop} {y : Run Engine α}
    (hx : Arena.Accesses x e.image.heap.arena addr (UInt64.ofNat n) Q)
    (hok : ∀ v a', x e.image.heap.arena = .ok v a' → y e = .ok v (e.withArena a'))
    (herror : ∀ f, x e.image.heap.arena = .error f e.image.heap.arena →
      y e = .error (.fault f) e) :
    Yields (checkAddress addr n >>= fun _ => y) e
      (fun v e' => e.image.heap.arena.InRange addr (UInt64.ofNat n) ∧
        ∃ a', Q v a' ∧ e' = e.withArena a')
      (fun stop e' => ¬ e.image.heap.arena.InRange addr (UInt64.ofNat n) ∧
        stop = e.memoryStop addr n ∧ e' = e) := by
  have hcheck := checkAddress_eq e addr n
  by_cases hin : e.image.heap.arena.InRange addr (UInt64.ofNat n)
  · rw [(Arena.check_eq_ok_iff hs).2 (Or.inl hin)] at hcheck
    obtain ⟨v, a', hrun, hq⟩ := hx.exists_ok hin
    exact Yields.bind_ok hcheck (Yields.of_ok (hok v a' hrun) ⟨hin, a', hq, rfl⟩)
  · by_cases hwrap : e.image.heap.arena.Around addr (UInt64.ofNat n)
    · rw [(Arena.check_eq_ok_iff hs).2 (Or.inr hwrap)] at hcheck
      have hrun := herror _ (hx.eq_outOfBounds hs hwrap)
      exact Yields.bind_ok hcheck
        (Yields.of_error hrun ⟨hin, by rw [memoryStop, if_pos hwrap], rfl⟩)
    · rw [Arena.check_eq_error hs hin hwrap] at hcheck
      exact Yields.of_error (bind_eq_error hcheck)
        ⟨hin, by rw [memoryStop, if_neg hwrap], rfl⟩

/-- A read of code in the arena. -/
theorem load_yields (hs : e.image.heap.arena.Sized) (addr : UInt64) (n : Nat) :
    Yields (arenaMemory.load addr n) e
      (fun ws e' => e.image.heap.arena.InRange addr (UInt64.ofNat n) ∧
        e.image.heap.arena.Holds addr ws ∧ ws.length = (UInt64.ofNat n).toNat ∧ e' = e)
      (fun stop e' => ¬ e.image.heap.arena.InRange addr (UInt64.ofNat n) ∧
        stop = e.memoryStop addr n ∧ e' = e) := by
  apply (access_yields hs (Arena.slice_accesses hs addr (UInt64.ofNat n)) ?_ ?_).imp
  · intro ws e' h
    obtain ⟨hin, a', ⟨hholds, hlen, rfl⟩, rfl⟩ := h
    exact ⟨hin, hholds, hlen, rfl⟩
  · intro ws a' hrun
    obtain ⟨hslice, rfl⟩ := inspect_eq_ok_iff.1 hrun
    rw [Code.ofInt_natCast]
    simp only [look, Heap.slice, hslice]
    rfl
  · intro f hrun
    obtain ⟨hslice, -⟩ := inspect_eq_error_iff.1 hrun
    rw [Code.ofInt_natCast]
    simp only [look, Heap.slice, hslice]

/-- A write of code in the arena. -/
theorem store_yields (hs : e.image.heap.arena.Sized) (addr : UInt64) (hlen : ws.length < 2 ^ 64) :
    Yields (arenaMemory.store addr ws) e
      (fun _ e' => e.image.heap.arena.InRange addr (UInt64.ofNat ws.length) ∧
        ∃ a', e.image.heap.arena.Rewritten addr ws a' ∧ e' = e.withArena a')
      (fun stop e' => ¬ e.image.heap.arena.InRange addr (UInt64.ofNat ws.length) ∧
        stop = e.memoryStop addr ws.length ∧ e' = e) := by
  apply access_yields hs (Arena.setWords_accesses hs addr hlen)
  · intro u a' hrun
    exact lift_eq_ok (onImage_ok (Image.onHeap_ok (Heap.onArena_ok hrun)))
  · intro f hrun
    exact lift_eq_error (onImage_error (Image.onHeap_error (Heap.onArena_error hrun)))

/-! ### Every address -/

variable {f : Frame} {run : UInt64 → EngineM Boxed}

/-- A length that a word can hold. -/
theorem inRange_iff {a : Arena} (hn : n < 2 ^ 63) :
    a.InRange addr (UInt64.ofNat n) ↔ (Place.arena addr).Has f a n := by
  rw [Arena.InRange, Place.Has, UInt64.toNat_ofNat', Nat.mod_eq_of_lt (by omega)]

/-- At an address without the frame bit no length makes the sum wrap. -/
theorem memoryStop_unmarked (hmark : addr &&& frameBit = 0) (hn : n < 2 ^ 63) :
    e.memoryStop addr n = .error ((Place.arena addr).badAddress n) := by
  have haddr := Code.lt_of_unmarked hmark
  have hwrap : ¬ e.image.heap.arena.Around addr (UInt64.ofNat n) := by
    apply Arena.not_around_of_lt
    rw [UInt64.toNat_ofNat']
    omega
  rw [memoryStop, if_neg hwrap]
  rfl

/-- A read through any address: the words of its range, or the error for a bad address. -/
theorem loadAt_yields (hf : f.words.size ≤ Arena.maxWords.toNat)
    (hs : e.image.heap.arena.Sized) (addr : UInt64) (hn : n < 2 ^ 63) :
    Yields (loadAt (host run) f addr n) e
      (fun ws e' => (place addr).Has f e.image.heap.arena n ∧
        (place addr).Reads f e.image.heap.arena ws ∧ ws.length = n ∧ e' = e)
      (fun stop e' => ¬ (place addr).Has f e.image.heap.arena n ∧
        stop = .error ((place addr).badAddress n) ∧ e' = e) := by
  by_cases hmark : addr &&& frameBit = 0
  · have hload : loadAt (host run) f addr n = arenaMemory.load addr n := if_neg (not_not.2 hmark)
    rw [hload, place, if_neg (not_not.2 hmark)]
    refine (load_yields hs addr n).mono ?_ ?_
    · intro ws e' h
      obtain ⟨hin, hholds, hlen, rfl⟩ := h
      rw [UInt64.toNat_ofNat', Nat.mod_eq_of_lt (by omega)] at hlen
      exact ⟨(inRange_iff hn).1 hin, hholds, hlen, rfl⟩
    · intro stop e' h
      obtain ⟨hout, hstop, rfl⟩ := h
      exact ⟨fun hin => hout ((inRange_iff hn).2 hin),
        hstop.trans (memoryStop_unmarked hmark hn), rfl⟩
  · rw [place, if_pos hmark]
    exact Code.loadAt_frame hmark hf hn

/-- A write through any address: exactly to its range, or the error for a bad address. -/
theorem storeAt_yields (hf : f.words.size ≤ Arena.maxWords.toNat)
    (hs : e.image.heap.arena.Sized) (addr : UInt64) (hlen : ws.length < 2 ^ 63) :
    Yields (storeAt (host run) f addr ws) e
      (fun f' e' => (place addr).Has f e.image.heap.arena ws.length ∧
        ∃ a', (place addr).Writes f e.image.heap.arena f' a' ws ∧ e' = e.withArena a')
      (fun stop e' => ¬ (place addr).Has f e.image.heap.arena ws.length ∧
        stop = .error ((place addr).badAddress ws.length) ∧ e' = e) := by
  by_cases hmark : addr &&& frameBit = 0
  · have hstore : storeAt (host run) f addr ws
        = arenaMemory.store addr ws >>= fun _ => pure f := if_neg (not_not.2 hmark)
    rw [hstore, place, if_neg (not_not.2 hmark)]
    refine Yields.bind ((store_yields hs addr (by omega)).mono ?_ ?_)
    · intro u e' h
      obtain ⟨hin, a', hwritten, rfl⟩ := h
      exact Yields.pure ⟨(inRange_iff hlen).1 hin, a', ⟨rfl, hwritten⟩, rfl⟩
    · intro stop e' h
      obtain ⟨hout, hstop, rfl⟩ := h
      exact ⟨fun hin => hout ((inRange_iff hlen).2 hin),
        hstop.trans (memoryStop_unmarked hmark hlen), rfl⟩
  · rw [place, if_pos hmark]
    refine (Code.storeAt_frame hmark hf hlen).mono ?_ fun _ _ h => h
    intro f' e' h
    obtain ⟨hin, hstored, rfl⟩ := h
    exact ⟨hin, _, ⟨hstored, rfl⟩, rfl⟩

/-! ### Instructions -/

section Instructions

variable {H : Services} {p : Program} {w : Nat}

/-- The words of a value are far fewer than half of the address space. -/
theorem width_lt (hf : f.Fits p) {v : Value} (hv : (p.bounds H w).value v n) : n < 2 ^ 63 := by
  have hmax := Arena.maxWords_toNat
  have hregs := hf.regs
  have hfew := hf.fewRegs
  obtain ⟨-, hreg, hle⟩ := hv
  omega

/-- A stop at words that are not there. -/
def Misses (f : Frame) (e : Engine) (stop : Stop RunError) : Prop :=
  ∃ addr n, ¬ (place addr).Has f e.image.heap.arena n ∧
    stop = .error ((place addr).badAddress n)

/-- In a program in bounds an indirect read leads on with the words of its range, or it ends
    with the error for a bad address, whatever word it takes for an address. -/
theorem loadIndirect_yields (hf : f.Fits p) (hs : e.image.heap.arena.Sized) {dst addr : Value}
    (hx : (Instr.loadIndirect dst addr).Within (p.bounds H w)) :
    Yields ((Instr.loadIndirect dst addr).exec (host run) p f) e
      (fun next e' => next.Fits p w (.loadIndirect dst addr) ∧ (∃ a ws f', f.word addr = .ok a ∧
        (place a).Reads f e.image.heap.arena ws ∧ ws.length = dst.words ∧
        f.set dst ws = .ok f' ∧ next = .onward f') ∧ e' = e)
      (fun stop e' => Misses f e stop ∧ e' = e) := by
  obtain ⟨⟨n, hdst⟩, haddr⟩ := hx
  obtain ⟨a, ha⟩ := hf.word haddr
  apply Yields.bind (Code.sound_yields ha _)
  rw [hdst.1]
  apply Yields.bind
  refine (loadAt_yields hf.fewWords hs a (width_lt hf hdst)).mono ?_ ?_
  · intro ws e' h
    obtain ⟨-, hreads, hlen, rfl⟩ := h
    obtain ⟨f', hset, hf'⟩ := hf.set hdst ws
    apply Yields.bind (Code.sound_yields hset _)
    exact ⟨⟨hf', rfl⟩, ⟨a, ws, f', ha, hreads, congrArg _ hlen, hset, rfl⟩, rfl⟩
  · intro stop e' h
    obtain ⟨hout, hstop, rfl⟩ := h
    exact ⟨⟨a, n, hout, hstop⟩, rfl⟩

/-- In a program in bounds an indirect write leads on, and then it has changed exactly its
    range, or it ends with the error for a bad address and has changed nothing. -/
theorem storeIndirect_yields (hf : f.Fits p) (hs : e.image.heap.arena.Sized) {addr src : Value}
    (hx : (Instr.storeIndirect addr src).Within (p.bounds H w)) :
    Yields ((Instr.storeIndirect addr src).exec (host run) p f) e
      (fun next e' => next.Fits p w (.storeIndirect addr src) ∧ ∃ a ws f' arena',
        f.word addr = .ok a ∧ f.get src = .ok ws ∧ next = .onward f' ∧
        (place a).Writes f e.image.heap.arena f' arena' ws ∧ e' = e.withArena arena')
      (fun stop e' => Misses f e stop ∧ e' = e) := by
  obtain ⟨haddr, n, hsrc⟩ := hx
  obtain ⟨a, ha⟩ := hf.word haddr
  obtain ⟨ws, hws, hlen⟩ := hf.get hsrc
  have hshort : ws.length < 2 ^ 63 := by
    rw [hlen]
    exact width_lt hf hsrc
  apply Yields.bind (Code.sound_yields ha _)
  apply Yields.bind (Code.sound_yields hws _)
  apply Yields.bind
  have hfits : Yields (storeAt (host run) f a ws) e (fun f' _ => f'.Fits p)
      (fun stop _ => Code.BadAddress (host run) stop) := Code.storeAt_yields hf a ws
  cases hrun : storeAt (host run) f a ws e with
  | ok f' e' =>
    obtain ⟨-, arena', hwrites, he⟩ := (storeAt_yields hf.fewWords hs a hshort).ok hrun
    refine Yields.of_ok hrun ⟨⟨hfits.ok hrun, rfl⟩, a, ws, f', arena', ha, hws, rfl, hwrites, he⟩
  | error stop e' =>
    obtain ⟨hout, hstop, he⟩ := (storeAt_yields hf.fewWords hs a hshort).error hrun
    exact Yields.of_error hrun ⟨⟨a, ws.length, hout, hstop⟩, he⟩

end Instructions

/-- Four words of a frame and a read of fewer than no words: the sum wraps, and the read
    passes the check.  Code in bounds has no value of such a width. -/
example : loadAt (host run) ⟨#[], #[0, 0, 0, 0]⟩ (frameBit + 1) (-1) e
    = .error (.fault .outOfBounds) e :=
  rfl

end Engine

end TreeMachine
