import Covenant.Proofs.Bridge.Host

namespace Covenant

open Channel (Fits)

variable {σ : Type}

-- A formula whose request opens no more containers at once than a document may.
def Formula.Shallow (f : Formula) : Prop := f.toJson.depth < Json.depthLimit

instance (f : Formula) : Decidable f.Shallow :=
  inferInstanceAs (Decidable (f.toJson.depth < Json.depthLimit))

namespace Backend

-- What the solver itself answers to queries one after the other, and the state that they leave.
def run (backend : Backend σ) : List Formula → σ → List Answer × σ
  | [], s => ([], s)
  | f :: rest, s =>
      ((backend f s).1.answer :: (backend.run rest (backend f s).2).1,
        (backend.run rest (backend f s).2).2)

-- All frames of queries that are asked one after the other fit.
def AdmitsAll (backend : Backend σ) (capacity : Nat) : Nat → List Formula → σ → Prop
  | _, [], _ => True
  | id, f :: rest, s =>
      backend.Admits capacity id f s ∧ backend.AdmitsAll capacity (id + 1) rest (backend f s).2

theorem admitsAll_append {backend : Backend σ} {capacity id : Nat} {fs : List Formula} {f : Formula}
    {s : σ} (h : backend.AdmitsAll capacity id (fs ++ [f]) s) :
    backend.AdmitsAll capacity id fs s ∧
      backend.Admits capacity (id + fs.length) f (backend.run fs s).2 := by
  induction fs generalizing id s with
  | nil => exact ⟨trivial, h.1⟩
  | cons g rest ih =>
      obtain ⟨hg, hrest⟩ := h
      obtain ⟨hall, hf⟩ := ih hrest
      refine ⟨⟨hg, hall⟩, ?_⟩
      rw [List.length_cons, show id + (rest.length + 1) = id + 1 + rest.length by omega]
      exact hf

end Backend

namespace Host

variable {h : Host σ} {backend : Backend σ} {f : Formula} {requests responses capacity : Nat}

-- Asks the worker of a host one query after the other.
def ask (backend : Backend σ) : List Formula → Host σ → List Answer × Host σ
  | [], h => ([], h)
  | f :: rest, h =>
      ((h.check backend f).1 :: (ask backend rest (h.check backend f).2).1,
        (ask backend rest (h.check backend f).2).2)

-- The host answers a query as its solver does, and is ready for more.
def Carries (backend : Backend σ) (f : Formula) (h : Host σ) : Prop :=
  (h.check backend f).1 = (backend f h.worker.state).1.answer ∧
    (h.check backend f).2.client.isConnected = true ∧
    (h.check backend f).2.worker.state = (backend f h.worker.state).2

-- The nesting decides whether the worker can read the request.
theorem decode_request (f : Formula) {id : Nat} (hid : id < Request.idLimit) :
    Request.decode (Request.encode ⟨id, f⟩) =
      if f.Shallow then .ok ⟨id, f⟩ else Json.Reader.stop .malformed := by
  rw [Request.decode_encode hid, Json.Reader.within, Request.depth_toJson]
  rfl

namespace Idle

theorem isConnected (hidle : h.Idle requests responses capacity) : h.client.isConnected = true := by
  rw [Client.isConnected, hidle.client.failed]
  rfl

theorem check_shallow (hidle : h.Idle requests responses capacity)
    (hadmits : backend.Admits capacity h.client.nextId f h.worker.state) (hf : f.Shallow) :
    ∃ h', h.check backend f = ((backend f h.worker.state).1.answer, h') ∧
      h'.Idle requests responses capacity ∧ h'.worker.state = (backend f h.worker.state).2 ∧
      h'.client = { h.client with nextId := h.client.nextId + 1 } := by
  apply hidle.check_of_decode hadmits
  rw [decode_request f hadmits.counted, if_pos hf]

theorem check_deep (hidle : h.Idle requests responses capacity)
    (hadmits : backend.Admits capacity h.client.nextId f h.worker.state) (hf : ¬f.Shallow) :
    ∃ h', h.check backend f =
        (.error (.unavailable s!"no response within {h.client.timeoutMs} ms"), h') ∧
      h'.client.isConnected = false ∧ h'.worker = h.worker := by
  have hdecode := decode_request f hadmits.counted
  rw [if_neg hf] at hdecode
  exact hidle.check_of_dropped hadmits.request hdecode

theorem carries_iff (hidle : h.Idle requests responses capacity)
    (hadmits : backend.Admits capacity h.client.nextId f h.worker.state) :
    h.Carries backend f ↔ f.Shallow := by
  constructor
  · intro hcarries
    by_contra hf
    obtain ⟨h', hcheck, hlost, -⟩ := hidle.check_deep hadmits hf
    have hconnected := hcarries.2.1
    rw [hcheck, hlost] at hconnected
    cases hconnected
  · intro hf
    obtain ⟨h', hcheck, hidle', hstate, -⟩ := hidle.check_shallow hadmits hf
    simp only [Carries, hcheck]
    exact ⟨trivial, hidle'.isConnected, hstate⟩

-- After each query all is as before it, but for the state of the solver and the next number.
theorem ask {fs : List Formula} (hidle : h.Idle requests responses capacity)
    (hadmits : backend.AdmitsAll capacity h.client.nextId fs h.worker.state)
    (hfs : ∀ f ∈ fs, f.Shallow) :
    ∃ h', Host.ask backend fs h = ((backend.run fs h.worker.state).1, h') ∧
      h'.Idle requests responses capacity ∧
      h'.worker.state = (backend.run fs h.worker.state).2 ∧
      h'.client = { h.client with nextId := h.client.nextId + fs.length } := by
  induction fs generalizing h with
  | nil => exact ⟨h, rfl, hidle, rfl, rfl⟩
  | cons f rest ih =>
      obtain ⟨hf, hrest⟩ := List.forall_mem_cons.mp hfs
      obtain ⟨h₁, hcheck, hidle₁, hstate₁, hclient₁⟩ := hidle.check_shallow hadmits.1 hf
      have hadmits₁ : backend.AdmitsAll capacity h₁.client.nextId rest h₁.worker.state := by
        rw [hstate₁, hclient₁]
        exact hadmits.2
      obtain ⟨h₂, hask, hidle₂, hstate₂, hclient₂⟩ := ih hidle₁ hadmits₁ hrest
      refine ⟨h₂, ?_, hidle₂, ?_, ?_⟩
      · rw [Host.ask, hcheck, hask, hstate₁, Backend.run]
      · rw [hstate₂, hstate₁, Backend.run]
      · rw [hclient₂, hclient₁, List.length_cons, ← Nat.add_assoc, Nat.add_right_comm]

end Idle

-- A host answers as its solver does, query after query, as long as the requests can be read. The
-- first one that cannot ends it, though the solver is never asked about it.
theorem transparent_iff_shallow (backend : Backend σ) (state : σ) (config : BridgeConfig)
    (r : Registry) (hrequest : r.contains (r.freshName "vow-req").1 = false)
    (hresponse : r.contains ((r.freshName "vow-req").2.freshName "vow-resp").1 = false)
    (hlasting : config.idleTimeoutMs ≠ 0) (hpatience : config.responseTimeoutMs ≠ 0) :
    ∃ h, (spawn backend state config r).1 = .ok h ∧
      ∀ (fs : List Formula) (f : Formula),
        backend.AdmitsAll config.capacity 0 (fs ++ [f]) state → (∀ g ∈ fs, g.Shallow) →
        ∃ h', Host.ask backend fs h = ((backend.run fs state).1, h') ∧
          h'.worker.state = (backend.run fs state).2 ∧ h'.client.isConnected = true ∧
          (h'.Carries backend f ↔ f.Shallow) ∧
          (¬f.Shallow → (h'.check backend f).1 =
              .error (.unavailable s!"no response within {config.responseTimeoutMs} ms") ∧
            (h'.check backend f).2.client.isConnected = false ∧
            (h'.check backend f).2.worker.state = (backend.run fs state).2) := by
  obtain ⟨h, requests, responses, hspawn, hidle, rfl, hid, htimeout⟩ :=
    spawn_idle backend state config r hrequest hresponse hlasting hpatience
  refine ⟨h, hspawn, fun fs f hadmits hfs => ?_⟩
  obtain ⟨hall, hf⟩ := Backend.admitsAll_append hadmits
  rw [← hid] at hall hf
  obtain ⟨h', hask, hidle', hstate, hclient⟩ := hidle.ask hall hfs
  have hadmits' : backend.Admits config.capacity h'.client.nextId f h'.worker.state := by
    rw [hstate, hclient]
    exact hf
  refine ⟨h', hask, hstate, hidle'.isConnected, hidle'.carries_iff hadmits', fun hdeep => ?_⟩
  obtain ⟨h'', hcheck, hlost, hworker⟩ := hidle'.check_deep hadmits' hdeep
  rw [hcheck, hworker, hclient, ← htimeout]
  exact ⟨rfl, hlost, hstate⟩

end Host

-- A short text fits a segment however its characters are written.
theorem Channel.fits_compact {capacity : Nat} {j : Json} (hcapacity : capacity < Segment.lengthLimit)
    (h : 4 * j.render.length + Segment.headerSize ≤ capacity) :
    Fits capacity [] (Text.toBytes j.compact) := by
  have hlength := Text.length_toBytes_ofList j.render
  have hfree : (Segment.holding capacity []).free = capacity - Segment.headerSize := rfl
  constructor
  · rw [Json.compact]
    omega
  · rw [Json.compact, hfree]
    omega

-- A solver that counts its queries. It breaks off where there is nothing to check.
def Backend.counting : Backend Nat := fun f n =>
  match f.assertions with
  | [] => (.crashed (some "nothing to check"), n + 1)
  | t :: _ => (.answered (.ok (if t.sort = .bool then .proved else .unknown "not a condition")), n + 1)

-- Terms that are nested as deep as one likes.
def Term.nots : Nat → Term
  | 0 => .bool true
  | n + 1 => .not (nots n)

theorem Term.length_render_nots (n : Nat) : (nots n).toJson.render.length = 8 * n + 13 := by
  induction n with
  | zero => decide
  | succ n ih =>
      have hquote : (Json.quote "not").length = 5 := by decide
      simp only [nots, toJson, Json.tagged, Json.render, Json.renderMembers, List.length_cons,
        List.length_append, List.length_nil, ih, hquote]
      omega

theorem Term.depth_nots (n : Nat) : (nots n).toJson.depth = n + 1 := by
  induction n with
  | zero => decide
  | succ n ih => rw [nots, toJson, Json.depth_tagged, ih]

-- The formula and the list of its assertions are two levels.
theorem Formula.shallow_nots (n : Nat) : Shallow ⟨[.nots n]⟩ ↔ n + 3 < Json.depthLimit := by
  have hdepth : (toJson ⟨[.nots n]⟩).depth = (Term.nots n).toJson.depth + 2 := by
    simp [toJson, Json.list, Json.depth, Json.itemsDepth, Json.membersDepth]
  rw [Shallow, hdepth, Term.depth_nots]

theorem Request.length_render_nots (id n : Nat) :
    (toJson ⟨id, ⟨[.nots n]⟩⟩).render.length = (Json.nat id).render.length + 8 * n + 48 := by
  have hid : (Json.quote "id").length = 4 := by decide
  have hformula : (Json.quote "formula").length = 9 := by decide
  have hassertions : (Json.quote "assertions").length = 12 := by decide
  simp only [toJson, Formula.toJson, Json.list, List.map_cons, List.map_nil, Json.render,
    Json.renderMembers, Json.renderItems, List.length_cons, List.length_append, List.length_nil,
    Term.length_render_nots, hid, hformula, hassertions]
  omega

theorem Backend.Admits.of_short {backend : Backend σ} {capacity id : Nat} {f : Formula} {s : σ}
    (hid : id < Request.idLimit) (hcapacity : capacity < Segment.lengthLimit)
    (hrequest : 4 * (Request.toJson ⟨id, f⟩).render.length + Segment.headerSize ≤ capacity)
    (hresponse : 4 * (Response.toJson ⟨id, (backend f s).1.answer⟩).render.length +
      Segment.headerSize ≤ capacity) : backend.Admits capacity id f s :=
  ⟨hid, Channel.fits_compact hcapacity hrequest, Channel.fits_compact hcapacity hresponse⟩

-- A query on which the solver breaks off, and two that it answers.
theorem Host.transparent_iff_shallow_counting :
    ∃ h, (spawn Backend.counting 0 .standard (.empty "p")).1 = .ok h ∧
      (Host.ask Backend.counting [⟨[]⟩, ⟨[.int 2]⟩] h).1 =
        [.error (.backend "nothing to check"), .ok (.unknown "not a condition")] ∧
      (Host.ask Backend.counting [⟨[]⟩, ⟨[.int 2]⟩] h).2.Carries Backend.counting
        ⟨[.nots 123]⟩ := by
  obtain ⟨h, hspawn, hh⟩ := transparent_iff_shallow Backend.counting 0 .standard (.empty "p")
    (by decide) (by decide) (by decide) (by decide)
  have hadmits : Backend.counting.AdmitsAll BridgeConfig.standard.capacity 0
      ([⟨[]⟩, ⟨[.int 2]⟩] ++ [⟨[.nots 123]⟩]) 0 := by
    refine ⟨?_, ?_, ?_, trivial⟩
    · exact .of_short (by decide) (by decide) (by decide +kernel) (by decide +kernel)
    · exact .of_short (by decide) (by decide) (by decide +kernel) (by decide +kernel)
    · refine .of_short (by decide) (by decide) ?_ (by decide +kernel)
      rw [Request.length_render_nots]
      decide
  obtain ⟨h', hask, -, -, hcarries, -⟩ :=
    hh [⟨[]⟩, ⟨[.int 2]⟩] ⟨[.nots 123]⟩ hadmits (by decide +kernel)
  refine ⟨h, hspawn, ?_, ?_⟩
  · rw [hask]
    rfl
  · rw [hask]
    exact hcarries.mpr ((Formula.shallow_nots 123).mpr (by decide))

-- One level more, and a query that fits and that the solver proves is not answered. It takes the
-- client down.
theorem Host.deep_query_lost :
    Backend.counting.Admits 65536 0 ⟨[.nots 124]⟩ 0 ∧
      (Backend.counting ⟨[.nots 124]⟩ 0).1.answer = .ok .proved ∧
      ∃ h, (spawn Backend.counting 0 ⟨65536, 60000, 200⟩ (.empty "p")).1 = .ok h ∧
        (h.check Backend.counting ⟨[.nots 124]⟩).1 =
          .error (.unavailable "no response within 200 ms") ∧
        (h.check Backend.counting ⟨[.nots 124]⟩).2.client.isConnected = false := by
  have hadmits : Backend.counting.Admits 65536 0 ⟨[.nots 124]⟩ 0 := by
    refine .of_short (by decide) (by decide) ?_ (by decide +kernel)
    rw [Request.length_render_nots]
    decide
  have hdeep : ¬Formula.Shallow ⟨[.nots 124]⟩ := by
    rw [Formula.shallow_nots]
    decide
  obtain ⟨h, requests, responses, hspawn, hidle, hstate, hid, htimeout⟩ :=
    spawn_idle Backend.counting 0 ⟨65536, 60000, 200⟩ (.empty "p") (by decide) (by decide)
      (by decide) (by decide)
  obtain ⟨h', hcheck, hlost, -⟩ := hidle.check_deep (by rw [hid, hstate]; exact hadmits) hdeep
  refine ⟨hadmits, rfl, h, hspawn, ?_, ?_⟩
  · rw [hcheck, htimeout]
    rfl
  · rw [hcheck]
    exact hlost

end Covenant
