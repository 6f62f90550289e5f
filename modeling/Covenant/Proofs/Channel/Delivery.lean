import Covenant.Proofs.Channel.Exchange

namespace Covenant

namespace Segment

variable {s s' : Segment} {message : Bytes} {queued accepted delivered more others : List Bytes}

-- A header is followed by all the bytes that it counts, and nothing shorter than a header is left.
structure Complete (s : Segment) : Prop where
  header : s.bytes = [] ∨ headerSize ≤ s.bytes.length
  payload : ∀ b₀ b₁ b₂ b₃ rest, s.bytes = b₀ :: b₁ :: b₂ :: b₃ :: rest →
    lengthOf b₀ b₁ b₂ b₃ ≤ rest.length

theorem push_of_frames (hbytes : s.bytes = queued.flatMap frame) (message : Bytes) :
    (s.push message).bytes = (queued ++ [message]).flatMap frame := by
  simp [push, hbytes, frame, List.flatMap_append]

theorem pop_of_frames (hbytes : s.bytes = queued.flatMap frame)
    (hshort : ∀ m ∈ queued, m.length < lengthLimit) :
    s.pop = queued.head?.map fun m => (m, ⟨s.capacity, queued.tail.flatMap frame, s.closed⟩) := by
  obtain ⟨capacity, bytes, closed⟩ := s
  subst hbytes
  cases queued with
  | nil => rfl
  | cons m rest => exact pop_frame (hshort m List.mem_cons_self) capacity _ closed

theorem complete_of_frames (hbytes : s.bytes = queued.flatMap frame)
    (hshort : ∀ m ∈ queued, m.length < lengthLimit) : s.Complete := by
  cases queued with
  | nil =>
      refine ⟨.inl hbytes, fun b₀ b₁ b₂ b₃ rest h => ?_⟩
      rw [hbytes] at h
      cases h
  | cons m more =>
      rw [List.flatMap_cons] at hbytes
      constructor
      · right
        rw [hbytes, List.length_append, length_frame]
        omega
      · intro b₀ b₁ b₂ b₃ rest h
        rw [hbytes, frame, header] at h
        simp only [List.cons_append, List.nil_append, List.cons.injEq] at h
        obtain ⟨rfl, rfl, rfl, rfl, rfl⟩ := h
        rw [lengthOf_header (hshort m List.mem_cons_self), List.length_append]
        omega

-- The messages that stand in a segment, against all that went in and came out of it. Only
-- closing loses messages.
structure Account (s : Segment) (accepted delivered queued : List Bytes) : Prop where
  bytes : s.bytes = queued.flatMap frame
  short : ∀ m ∈ queued, m.length < lengthLimit
  ordered : delivered ++ queued <+: accepted
  lossless : s.closed = false → delivered ++ queued = accepted
  cleared : s.closed = true → queued = []

namespace Account

theorem empty (capacity : Nat) : (Segment.empty capacity).Account [] [] [] :=
  ⟨rfl, by simp, List.nil_prefix, fun _ => rfl, fun _ => rfl⟩

theorem push (h : s.Account accepted delivered queued) (hopen : s.closed = false)
    (hshort : message.length < lengthLimit) :
    (s.push message).Account (accepted ++ [message]) delivered (queued ++ [message]) := by
  have hall := h.lossless hopen
  refine ⟨push_of_frames h.bytes message, ?_, ?_, fun _ => ?_, fun hclosed => ?_⟩
  · simpa [hshort, or_imp, forall_and] using h.short
  · rw [← List.append_assoc, hall]
  · rw [← List.append_assoc, hall]
  · rw [Segment.push, hopen] at hclosed
    cases hclosed

theorem pop (h : s.Account accepted delivered queued) (hopen : s.closed = false)
    (hpop : s.pop = some (message, s')) :
    ∃ rest, queued = message :: rest ∧ s'.Account accepted (delivered ++ [message]) rest := by
  rw [pop_of_frames h.bytes h.short] at hpop
  cases queued with
  | nil => cases hpop
  | cons m rest =>
      cases hpop
      have hall : delivered ++ [message] ++ rest = accepted := by
        rw [List.append_assoc]
        exact h.lossless hopen
      have hshort := (List.forall_mem_cons.mp h.short).2
      refine ⟨rest, rfl, rfl, hshort, by rw [hall], fun _ => hall, fun hclosed => ?_⟩
      change s.closed = true at hclosed
      rw [hopen] at hclosed
      cases hclosed

theorem close (h : s.Account accepted delivered queued) :
    s.close.Account accepted delivered [] := by
  have hordered : delivered ++ [] <+: accepted := by
    rw [List.append_nil]
    exact (List.prefix_append delivered queued).trans h.ordered
  exact ⟨rfl, by simp, hordered, fun hopen => absurd hopen (by simp [Segment.close]), fun _ => rfl⟩

theorem turn (h : s.Account accepted delivered queued) (hturn : Turn more others s s') :
    ∃ queued', s'.Account (accepted ++ more) (delivered ++ others) queued' := by
  cases hturn with
  | rest => exact ⟨queued, by simpa using h⟩
  | @push _ m hopen hshort _ => exact ⟨queued ++ [m], by simpa using h.push hopen hshort⟩
  | pop hopen hpop =>
      obtain ⟨rest, -, hrest⟩ := h.pop hopen hpop
      exact ⟨rest, by simpa using hrest⟩
  | close => exact ⟨[], by simpa using h.close⟩

end Account

end Segment

namespace Exchange

variable {x : Exchange} {number i : Nat} {s : Segment} {c : Channel} {e : ChannelError}

-- A segment that was made in the course of a run.
theorem account_of_run (ops : List Operation) (hnew : x.registry.segments[number]? = none)
    (hs : (run ops x).registry.segments[number]? = some s) :
    ∃ queued, s.Account (total (accepted number) ops x) (total (delivered number) ops x) queued :=
  run_missing (P := fun ins outs s => ∃ queued, s.Account ins outs queued)
    (fun ⟨_, h⟩ hturn => h.turn hturn) (fun capacity => ⟨[], .empty capacity⟩) ops hnew hs

theorem perform_freeLength (hc : x.find i = some c) (hattached : c.Attached .send number)
    (hs : x.registry.segments[number]? = some s) (hopen : s.closed = false) :
    x.perform (.act i .freeLength) = (.free s.free, x) := by
  rw [← Registry.segment_of_getElem? hs] at hopen ⊢
  have hfree := Channel.freeLength_eq_ok.mpr ⟨number, hattached, hopen, rfl⟩
  rw [perform_act hc]
  simp only [Channel.act, hfree, set_find hc]

theorem perform_write_iff (hc : x.find i = some c) (hattached : c.Attached .send number)
    (hs : x.registry.segments[number]? = some s) (hopen : s.closed = false) (message : Bytes) :
    (x.perform (.act i (.write message))).1 = .done ↔
      message.length ≤ s.free ∧ message.length < Segment.lengthLimit := by
  rw [← Registry.segment_of_getElem? hs] at hopen ⊢
  have hwrite := Channel.write_of_open hattached hopen message
  rw [perform_act hc]
  split_ifs at hwrite with hfits
  · rw [Channel.act_write_of_ok hwrite]
    exact iff_of_true rfl hfits.symm
  · rw [Channel.act_write_of_error hwrite]
    exact iff_of_false (by simp) fun h => hfits h.symm

theorem perform_read (hc : x.find i = some c) (hattached : c.Attached .receive number)
    (hs : x.registry.segments[number]? = some s) (hopen : s.closed = false) {queued : List Bytes}
    (hbytes : s.bytes = queued.flatMap Segment.frame)
    (hshort : ∀ m ∈ queued, m.length < Segment.lengthLimit) :
    (x.perform (.act i .read)).1 = .found queued.head? := by
  rw [← Registry.segment_of_getElem? hs] at hopen hbytes
  have hread := Channel.read_of_open hattached hopen
  rw [Segment.pop_of_frames hbytes hshort] at hread
  rw [perform_act hc, Channel.act_read_of_ok hread]
  cases queued with
  | nil => rfl
  | cons m rest => rfl

-- While a segment is open, what was read from it and what it still holds is what was written to
-- it, in order. Its bytes are those messages, each behind its length. A write is taken if and
-- only if it is no longer than the free length and its length fits the header, and what fails
-- changes nothing.
theorem delivered_in_order (owner : String) (ops : List Operation)
    (hs : (after owner ops).registry.segments[number]? = some s) (hopen : s.closed = false) :
    ∃ queued, s.bytes = queued.flatMap Segment.frame ∧ (∀ m ∈ queued, m.length < 2 ^ 32) ∧
      s.Complete ∧
      total (delivered number) ops (start (.empty owner)) ++ queued =
        total (accepted number) ops (start (.empty owner)) ∧
      (∀ i c, (after owner ops).find i = some c → c.Attached .receive number →
        ((after owner ops).perform (.act i .read)).1 = .found queued.head?) ∧
      (∀ i c, (after owner ops).find i = some c → c.Attached .send number →
        ∃ free, ((after owner ops).perform (.act i .freeLength)).1 = .free free ∧
          ∀ message, ((after owner ops).perform (.act i (.write message))).1 = .done ↔
            message.length ≤ free ∧ message.length < 2 ^ 32) ∧
      ∀ op e, ((after owner ops).perform op).1 = .failed e →
        ((after owner ops).perform op).2 = after owner ops := by
  obtain ⟨queued, haccount⟩ := account_of_run ops rfl hs
  refine ⟨queued, haccount.bytes, haccount.short,
    Segment.complete_of_frames haccount.bytes haccount.short, haccount.lossless hopen, ?_, ?_,
    fun op e => perform_of_failed⟩
  · intro i c hc hattached
    exact perform_read hc hattached hs hopen haccount.bytes haccount.short
  · intro i c hc hattached
    refine ⟨s.free, by rw [perform_freeLength hc hattached hs hopen], fun message => ?_⟩
    exact perform_write_iff hc hattached hs hopen message

-- Two ends that send and one that receives. The second message is too long for what is left.
def twoSenders : List Operation :=
  [.create "seg" 16, .make "seg" .send, .make "seg" .send, .make "seg" .receive, .act 0 .openEnd,
    .act 1 .openEnd, .act 2 .openEnd, .act 0 (.write [1, 2, 3]),
    .act 1 (.write (List.replicate 10 0)), .act 1 (.write []), .act 1 (.write [4]), .act 2 .read]

theorem delivered_in_order_twoSenders :
    ∃ queued, [0, 0, 0, 0, 1, 0, 0, 0, 4] = queued.flatMap Segment.frame ∧
      [[1, 2, 3]] ++ queued = [[1, 2, 3], [], [4]] ∧
      ((after "p" twoSenders).perform (.act 2 .read)).1 = .found queued.head? ∧
      ∃ free, ((after "p" twoSenders).perform (.act 0 .freeLength)).1 = .free free ∧
        (((after "p" twoSenders).perform (.act 0 (.write [5, 6, 7, 8]))).1 = .done ↔
          4 ≤ free ∧ 4 < 2 ^ 32) := by
  have hs : (after "p" twoSenders).registry.segments[0]? =
      some ⟨16, [0, 0, 0, 0, 1, 0, 0, 0, 4], false⟩ := by decide
  obtain ⟨queued, hbytes, -, -, hordered, hread, hwrite, -⟩ :=
    delivered_in_order "p" twoSenders hs rfl
  obtain ⟨free, hfree, htaken⟩ := hwrite 0 ⟨"seg", .send, .attached 0⟩ (by decide) ⟨rfl, rfl⟩
  refine ⟨queued, hbytes, ?_, hread 2 ⟨"seg", .receive, .attached 0⟩ (by decide) ⟨rfl, rfl⟩,
    free, hfree, htaken [5, 6, 7, 8]⟩
  have hdelivered : total (delivered 0) twoSenders (start (.empty "p")) = [[1, 2, 3]] := by decide
  have haccepted : total (accepted 0) twoSenders (start (.empty "p")) = [[1, 2, 3], [], [4]] := by
    decide
  rwa [hdelivered, haccepted] at hordered

end Exchange

end Covenant
