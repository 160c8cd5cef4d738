import Offside.Proofs.Run.Curbs
import Offside.Proofs.Run.Located

/-!
# Room for output

A sink with room for `c` bytes keeps the first `c` bytes that are written to it, and the write that
goes beyond them fails. A program does not see how much room there is. So it does the same as with
all the room it needs, up to the write that goes beyond, and ends there with an error at the call of
`PRINT` or `CLEAR` that made this write.

The room is a curb (`Curb.room`), which gives the outcome of the run. Where the error comes from is
read off the moments of the run.
-/

namespace Offside

open Run

def Machine.withRoom (c : Nat) (m : Machine) : Machine :=
  { m with sink := { m.sink with writing := .upTo (some c) } }

/-! ## Writing into little room -/

theorem extract_of_size_le {b : ByteArray} {n : Nat} (h : b.size ≤ n) : b.extract 0 n = b := by
  have hmax := ByteArray.extract_zero_max_size (a := b) (i := n)
  rwa [Nat.max_eq_left h] at hmax

def Curb.room (c : Nat) : Curb where
  limit n := n
  sink s := { s with writing := .upTo (some c) }
  cause := .output .full
  slack _ s := s.writing = .upTo none ∧ s.written.size ≤ c
  past s₀ s := s₀.written = s.written.extract 0 c ∧ c < s.written.size
  past_grows := by
    rintro s₀ s s' ⟨hs₀, hsize⟩ ⟨bytes, hbytes⟩
    constructor
    · have hnone : bytes.extract 0 (c - s.written.size) = .empty := by
        rw [Nat.sub_eq_zero_of_le (by omega), ByteArray.extract_same]
      rw [hbytes, ByteArray.extract_append, Nat.zero_sub, hnone, ByteArray.append_empty, hs₀]
    · rw [hbytes, ByteArray.size_append]
      omega

/-- The machine with these bytes written as well. -/
def Machine.andWritten (m : Machine) (bytes : ByteArray) : Machine :=
  { m with sink := { m.sink with state := ⟨m.sink.written ++ bytes, m.sink.state.memory⟩ } }

theorem write_unlimited {m : Machine} (h : m.sink.writing = .upTo none) (text : String) :
    write text m = .done () (m.andWritten text.toUTF8) := by
  obtain ⟨store, current, depth, limit, ⟨state, writing, flushing⟩, _⟩ := m
  cases h
  rfl

/-- With little room, all bytes are written that fit, and the write fails unless all do. -/
theorem write_withRoom (m : Machine) (c : Nat) (text : String) :
    write text (m.withRoom c) =
      if text.toUTF8.size ≤ c - m.sink.written.size then
        .done () ((m.andWritten text.toUTF8).withRoom c)
      else
        .failed ⟨.output .full, none⟩
          ((m.andWritten (text.toUTF8.extract 0 (c - m.sink.written.size))).withRoom c) := by
  by_cases hfits : text.toUTF8.size ≤ c - m.sink.written.size
  · have hreply : Sink.Writing.upTo (some c) m.sink.state text.toUTF8 =
        (m.sink.state.memory, none) := congrArg (Prod.mk _) (if_pos hfits)
    rw [if_pos hfits]
    unfold write request Sink.write Sink.writeBytes Machine.withRoom
    simp only [hreply]
    rfl
  · have hreply : Sink.Writing.upTo (some c) m.sink.state text.toUTF8 =
        (m.sink.state.memory, some ⟨c - m.sink.written.size, .full⟩) :=
      congrArg (Prod.mk _) (if_neg hfits)
    rw [if_neg hfits]
    unfold write request Sink.write Sink.writeBytes Machine.withRoom
    simp only [hreply]
    rfl

theorem flush_withRoom (m : Machine) (c : Nat) :
    flush (m.withRoom c) = (flush m).onMachine (Machine.withRoom c) := by
  unfold flush request Machine.withRoom
  simp only
  unfold Sink.flush
  simp only
  cases (m.sink.flushing m.sink.state).2 <;> rfl

theorem Curb.room_lawful (c : Nat) : (Curb.room c).Lawful where
  write text m := by
    refine ⟨Onward.write text m, fun _ _ _ => trivial, ?_⟩
    rintro ⟨hwriting, hsize⟩
    have hy : write text ((Curb.room c).on m) = _ := write_withRoom m c text
    rw [write_unlimited hwriting, hy]
    by_cases hfits : text.toUTF8.size ≤ c - m.sink.written.size
    · refine .inl ⟨if_pos hfits, fun m' hm' => ?_⟩
      cases hm'
      refine ⟨hwriting, ?_⟩
      show (m.sink.written ++ text.toUTF8).size ≤ c
      rw [ByteArray.size_append]
      omega
    · refine .inr ⟨none, _, if_neg hfits, fun m' hm' => ?_⟩
      cases hm'
      show m.sink.written ++ text.toUTF8.extract 0 (c - m.sink.written.size) =
          (m.sink.written ++ text.toUTF8).extract 0 c ∧
        c < (m.sink.written ++ text.toUTF8).size
      constructor
      · rw [ByteArray.extract_append, Nat.zero_sub, extract_of_size_le hsize]
      · rw [ByteArray.size_append]
        omega
  flush m := by
    refine ⟨Onward.flush m, fun _ _ _ => trivial, fun hslack => .inl ?_⟩
    refine ⟨flush_withRoom m c, fun m' hm' => ?_⟩
    have hm' : m' ∈ some m.flushed := machine?_request Sink.flush m ▸ hm'
    cases hm'
    exact hslack
  nested h := .nested_of_eq h rfl

/-! ## The write that goes beyond -/

/-- At this moment the name `n` calls `PRINT` or `CLEAR`, and there is no room for what the command
writes. -/
inductive Overflows : Moment → Name → Prop
  | call {fuel n es m i k m₁ vs m₂ m₃} (hn : callee n m = .done (.command i (.native k)) m₁)
      (hk : k = .print ∨ k = .clear) (hes : evalAll (apply fuel) es m₁ = .done vs m₂)
      (hrun : k.run vs m₂ = .failed ⟨.output .full, none⟩ m₃) :
      Overflows ⟨fuel, .expr (.call n es), m⟩ n

/-- If a run ends because there is no more room, then it ends at the call that wanted more. -/
theorem exists_overflow {p : Program} {fuel limit : Nat} {sink : Sink} {readings : Nat → Float}
    {pos : Option Position} {m' : Machine}
    (h : statementsOf p fuel (.standard limit sink readings) =
      .failed ⟨.output .full, pos⟩ m') :
    ∃ k b n, Reaches ((Job.program p).start fuel (.standard limit sink readings)) k b ∧
      Overflows b n ∧ pos = some n.pos := by
  have hstart : ((Job.program p).start fuel (.standard limit sink readings)).Within
      (bodyPositions p) := ⟨List.Subset.refl _, standard_within limit sink readings⟩
  have hfails : ((Job.program p).start fuel (.standard limit sink readings)).FailsWith
      ⟨.output .full, pos⟩ := Outcome.stop?_eq_error.mpr ⟨m', h⟩
  obtain ⟨k, b, hreaches, hraises⟩ := Moment.raised rfl hfails
  have hb := hreaches.within hstart
  generalize he : (⟨.output .full, pos⟩ : RuntimeError) = e at hraises
  cases hraises with
  | own h ho =>
    subst he
    cases ho.cause
  | limit hn hes hdepth => cases he
  | @native fuel n es m i k m₁ vs m₂ e m₃ hn hes hk =>
    have hstandard : k ∈ Native.standard := (Yields.callee n m hb.machine _ _ hn).1
    obtain ⟨o, rfl⟩ := Native.error_of_standard hstandard hk
    cases he
    refine ⟨_, _, n, hreaches, .call hn ?_ hes hk, rfl⟩
    rcases List.mem_cons.mp hstandard with hprint | hrest
    · exact .inl hprint
    · rcases List.mem_cons.mp hrest with hclear | hlast
      · exact .inr hclear
      · -- the clock writes nothing
        rw [List.mem_singleton.mp hlast] at hk
        cases hk

/-! ## Programs -/

theorem Outcome.flushed_withRoom (c : Nat) (o : Outcome Flow) :
    (o.onMachine (Machine.withRoom c)).flushed = o.flushed.onMachine (Machine.withRoom c) := by
  cases o with
  | done flow m => exact flush_withRoom m c
  | failed e m => rfl
  | exhausted => rfl

theorem flush_of_mem {p : Program} {fuel : Nat} {m m' : Machine}
    (hm : m.sink.flushing = .failing false) (h : m' ∈ (statementsOf p fuel m).machine?) :
    flush m' = .done () m' :=
  flush_of_failing
    (((Curb.statements_follow (Curb.room_lawful 0) fuel p m).onward m' h).flushing.trans hm)

/-- **A full sink only truncates.** Let a program end, on a fresh machine with all the room it needs
for its output. With room for `c` bytes it ends as well, and has written the first `c` bytes of the
same output. If the output fits, then it ends in the same way and leaves the same machine, but for
the room; if it does not, then the run ends at a moment at which `PRINT` or `CLEAR` is called and
there is no room for what is to be written, with an output error at the name of this call. -/
theorem full_sink_truncates (p : Program) (limit c : Nat) (readings : Nat → Float)
    {o : Outcome Unit} {m : Machine}
    (ho : Ends (runOf p) (.standard limit .unlimited readings) o) (hm : m ∈ o.machine?) :
    ∃ o' m', Ends (runOf p) (.standard limit ⟨.empty, some c, false⟩ readings) o' ∧
      m' ∈ o'.machine? ∧
      m'.sink.written = m.sink.written.extract 0 (min c m.sink.written.size) ∧
      (m.sink.written.size ≤ c → o' = o.onMachine (Machine.withRoom c)) ∧
      (c < m.sink.written.size → ∃ fuel k b n,
        Reaches ((Job.program p).start fuel (.standard limit ⟨.empty, some c, false⟩ readings))
          k b ∧
        Overflows b n ∧ o' = .failed ⟨.output .full, some n.pos⟩ m') := by
  obtain ⟨hend, fuel, rfl⟩ := ho
  have hmachine := hm
  rw [runOf_apply] at hend hm
  rw [Outcome.machine?_flushed] at hm
  obtain ⟨m₁, hm₁, rfl⟩ := Option.map_eq_some_iff.mp hm
  obtain ⟨-, -, hsame⟩ := Curb.statements_follow (Curb.room_lawful c) fuel p
    (.standard limit .unlimited readings)
  rcases hsame ⟨rfl, Nat.zero_le c⟩ with ⟨hsame, hslack⟩ | ⟨pos, m', hcut, hpast⟩
  · have hfits : m₁.flushed.sink.written.size ≤ c := (hslack m₁ hm₁).2
    have hrun : runOf p fuel (.standard limit ⟨.empty, some c, false⟩ readings) =
        (runOf p fuel (.standard limit .unlimited readings)).onMachine (Machine.withRoom c) := by
      rw [runOf_apply, runOf_apply, ← Outcome.flushed_withRoom]
      exact congrArg Outcome.flushed hsame
    refine ⟨_, m₁.flushed.withRoom c, ⟨?_, fuel, hrun⟩, ?_, ?_, fun _ => rfl, fun hc => ?_⟩
    · rwa [ne_eq, Outcome.onMachine_eq_exhausted, runOf_apply]
    · rw [Outcome.mem_machine?_onMachine]
      exact ⟨m₁.flushed, hmachine, rfl⟩
    · rw [Nat.min_eq_right hfits, ByteArray.extract_zero_size]
      rfl
    · omega
  · obtain ⟨hwritten, hbeyond⟩ := hpast m₁ hm₁
    have hbeyond : c < m₁.flushed.sink.written.size := hbeyond
    obtain ⟨k, b, n, hreaches, hoverflows, rfl⟩ := exists_overflow hcut
    have hflush : flush m' = .done () m' := flush_of_mem rfl (by rw [hcut]; rfl)
    have hrun : runOf p fuel (.standard limit ⟨.empty, some c, false⟩ readings) =
        .failed ⟨.output .full, some n.pos⟩ m' := by
      rw [runOf_apply]
      exact (congrArg Outcome.flushed hcut).trans (Outcome.flushed_failed hflush)
    refine ⟨_, m', ⟨by simp, fuel, hrun⟩, rfl, ?_, fun hfits => ?_, fun _ => ?_⟩
    · rw [Nat.min_eq_left (by omega), hwritten]
      rfl
    · omega
    · exact ⟨fuel, k, b, n, hreaches, hoverflows, rfl⟩

def twoLines : Program :=
  [.expression (.call ⟨"PRINT", ⟨1, 1⟩⟩ [.literal (.text "ab")]),
    .expression (.call ⟨"PRINT", ⟨2, 1⟩⟩ [.literal (.text "cd")])]

/-- With room for four of the six bytes, the second line is cut off behind its first letter. -/
theorem full_sink_truncates_twoLines :
    ∃ m, Ends (runOf twoLines) (.standard 1 .unlimited fun _ => 0) (.done () m) ∧
      m.sink.written = "ab\ncd\n".toUTF8 ∧
      ∃ m' fuel k b n, m'.sink.written = "ab\nc".toUTF8 ∧
        Ends (runOf twoLines) (.standard 1 ⟨.empty, some 4, false⟩ fun _ => 0)
          (.failed ⟨.output .full, some n.pos⟩ m') ∧
        Reaches ((Job.program twoLines).start fuel
          (.standard 1 ⟨.empty, some 4, false⟩ fun _ => 0)) k b ∧
        Overflows b n := by
  obtain ⟨m, hrun, hwritten⟩ : ∃ m,
      runOf twoLines 1 (.standard 1 .unlimited fun _ => 0) = .done () m ∧
        m.sink.written = "ab\ncd\n".toUTF8 :=
    ⟨_, by with_unfolding_all rfl, by with_unfolding_all rfl⟩
  have hends : Ends (runOf twoLines) (.standard 1 .unlimited fun _ => 0) (.done () m) :=
    ⟨by simp, 1, hrun⟩
  obtain ⟨o', m', hends', -, hbytes, -, hbeyond⟩ :=
    full_sink_truncates twoLines 1 4 (fun _ => 0) hends rfl
  obtain ⟨fuel, k, b, n, hreaches, hoverflows, rfl⟩ := hbeyond (by rw [hwritten]; decide)
  refine ⟨m, hends, hwritten, m', fuel, k, b, n, ?_, hends', hreaches, hoverflows⟩
  rw [hbytes, hwritten]
  decide

end Offside
