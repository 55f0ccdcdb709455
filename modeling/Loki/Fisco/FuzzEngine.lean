import Mathlib.Logic.Function.Basic

/-!
# The hook of the fuzzing node

`libloki/FuzzEngine.cpp`, `Strategy.cpp` and `StateModel.cpp`, with the dispatch of
`PBFTEngine::handleMsg` that calls them before the engine's own handlers.  Messages are objects
behind shared pointers; a pointer is the number of the received object.  What `rand()` returns is
an argument.  Packet types and package types are the numbers of the two enumerations, which agree
on the four package types.
-/

namespace Loki.Fisco.FuzzEngine

open List

/-- What the mutators read and write of a message.  All the rest is `body`. -/
structure Message where
  packetType : Nat
  view : UInt64 := 0
  timestamp : Int64 := 0
  version : Int32 := 0
  generatedFrom : UInt64 := 0
  hash : Nat := 0
  body : Nat := 0
  deriving DecidableEq

def createPBFTMsg : Message := { packetType := 0 }

def createViewChangeMsg : Message := { packetType := 3 }

/-! ## Mutators -/

/-- The numbers that one call of a mutator draws. -/
structure MutateDraws where
  (viewTemp timestampTemp versionTemp fromTemp : Nat := 0)
  (chooseView chooseHash chooseType chooseFrom chooseVersion chooseTimestamp : Nat := 0)
  (randFrom randVersion randType : Nat := 0)

variable (temp : Nat)

def mutateView (view : UInt64) : UInt64 :=
  match temp % 5 with
  | 0 => view
  | 1 => view - 100
  | 2 => view + 100
  | 3 => view - 1
  | _ => view + 1

def mutateTimestamp (timestamp : Int64) : Int64 :=
  match temp % 3 with
  | 0 => timestamp
  | 1 => timestamp + 1000
  | _ => timestamp - 1000

def mutatePbftMsg (d : MutateDraws) (m : Message) : Message where
  packetType := if d.chooseType % 2 = 0 then d.randType % 12 else m.packetType
  view := if d.chooseView % 2 = 0 then mutateView d.viewTemp m.view else m.view
  timestamp :=
    if d.chooseTimestamp % 2 = 0 then mutateTimestamp d.timestampTemp m.timestamp else m.timestamp
  version :=
    if d.chooseVersion % 2 = 0 then
      match d.versionTemp % 3 with
      | 0 => m.version + 1
      | 1 => m.version - 1
      | _ => .ofNat d.randVersion
    else m.version
  generatedFrom :=
    if d.chooseFrom % 2 = 0 then
      match d.fromTemp % 3 with
      | 0 => m.generatedFrom + 1
      | 1 => m.generatedFrom - 1
      | _ => .ofNat d.randFrom
    else m.generatedFrom
  hash := if d.chooseHash % 2 = 0 then 0 else m.hash
  body := m.body

def mutateViewChange (d : MutateDraws) (m : Message) : Message :=
  { m with
    view := if d.chooseView % 2 = 0 then mutateView d.viewTemp m.view else m.view
    timestamp :=
      if d.chooseTimestamp % 2 = 0 then mutateTimestamp d.timestampTemp m.timestamp
      else m.timestamp }

/-! ## State model -/

/-- A pointer that the state model keeps, and what the object held when it was recorded. -/
structure Seed where
  object : Nat
  recorded : Message

/-- `add_*` clears its vector first.  No state (`-1` in the source) is `none`. -/
structure State where
  curState : Option Nat := none
  (pbftMsgs preprepareMsgs prepareMsgs commitMsgs viewChangeMsgs : List Seed := [])

variable (s : State)

/-- The vector that the `switch` looks into for a package type. -/
def State.seeds : Nat → List Seed
  | 0 => s.preprepareMsgs
  | 1 => s.prepareMsgs
  | 2 => s.commitMsgs
  | 3 => s.viewChangeMsgs
  | _ => []

def State.kept : List Seed :=
  s.pbftMsgs ++ s.preprepareMsgs ++ s.prepareMsgs ++ s.commitMsgs ++ s.viewChangeMsgs

/-- What the fuzzer's handler of each packet type records; the engine ignores the other types. -/
def State.handle (m : Seed) : Nat → Option State
  | 0 => some { s with pbftMsgs := [m], preprepareMsgs := [m], curState := some 0 }
  | 1 => some { s with pbftMsgs := [m], prepareMsgs := [m], curState := some 1 }
  | 2 => some { s with pbftMsgs := [m], commitMsgs := [m], curState := some 2 }
  | 3 => some { s with viewChangeMsgs := [m], curState := some 3 }
  | 4 => some { s with curState := some 4 }
  | 9 => some { s with pbftMsgs := [m], curState := some 5 }
  | 10 => some { s with pbftMsgs := [m], curState := some 6 }
  | 11 => some { s with pbftMsgs := [m], curState := some 7 }
  | _ => none

/-- The fuzzer and the objects received so far, `next` in number. -/
structure Fuzzer where
  state : State := {}
  heap : Nat → Message := fun _ => createPBFTMsg
  next : Nat := 0

def Fuzzer.receive (maxView : UInt64) (f : Fuzzer) (m : Message) : Option Fuzzer :=
  if m.view > maxView then none
  else (f.state.handle ⟨f.next, m⟩ m.packetType).map fun s =>
    { state := s, heap := Function.update f.heap f.next m, next := f.next + 1 }

/-! ## Strategy and sending -/

/-- The numbers that one call of `protocol_mutate` draws. -/
structure Draws where
  nodes : Nat → Nat := fun _ => 0
  packets : Nat → Nat := fun _ => 0
  mutations : Nat → MutateDraws := fun _ => {}

variable (nodes : List Nat) (d : Draws) (curState : Option Nat) (temp : Nat)

def randomSendNodes (draws : Nat → Nat) : List Nat :=
  (nodes.zipIdx.filter fun node => draws node.2 % 2 = 0).map Prod.fst

def packageType : Nat :=
  match curState with
  | none => temp % 4
  | some state =>
    if temp % 5 ≤ 1 then (state + 1) % 4
    else if temp % 5 = 2 then state  -- a cast, whatever the number is
    else if temp % 5 = 3 then (state + 2) % 4
    else (state + 3) % 4

def randomSendProtocol (chosen : List Nat) (draws : Nat → Nat) : List Nat :=
  (range chosen.length).map fun i => packageType curState (draws i)

/-- A mutator's call: the object it was given, with its contents then, and the object returned. -/
structure Mutation where
  packet : Nat
  draws : MutateDraws
  given : Nat
  old : Message
  returned : Nat

structure Sent where
  recipients : List Nat
  contents : Message
  mutation : Option Mutation

/-- One turn of the loop.  `new_msg = old_msg` copies the pointer, so a mutator writes into the
seed and returns it.  Every message goes to all the chosen nodes. -/
def sendPacket (chosen : List Nat) (packet : Nat) (d : MutateDraws) (f : Fuzzer) :
    Fuzzer × List Sent :=
  if packet < 4 then
    match f.state.seeds packet with
    | seed :: _ =>
      let old := f.heap seed.object
      let new := if packet = 3 then mutateViewChange d old else mutatePbftMsg d old
      ({ f with heap := Function.update f.heap seed.object new },
        [⟨chosen, new, some ⟨packet, d, seed.object, old, seed.object⟩⟩])
    | [] => (f, [⟨chosen, if packet = 3 then createViewChangeMsg else createPBFTMsg, none⟩])
  else (f, [])

def sendPackets (chosen : List Nat) : List (Nat × MutateDraws) → Fuzzer → Fuzzer × List Sent
  | [], f => (f, [])
  | (packet, d) :: rest, f =>
    let (g, out) := sendPacket chosen packet d f
    let (h, more) := sendPackets chosen rest g
    (h, out ++ more)

def Draws.pair (packets : List Nat) : List (Nat × MutateDraws) :=
  packets.zipIdx.map fun packet => (packet.1, d.mutations packet.2)

def protocolMutate (f : Fuzzer) : Except String (Fuzzer × List Sent) :=
  let chosen := randomSendNodes nodes d.nodes
  let packets := randomSendProtocol f.state.curState chosen d.packets
  if chosen.length ≠ packets.length then
    throw "FuzzEngine Error: the number of sending nodes and sending packetes are not equal!!"
  else
    pure (sendPackets chosen (d.pair packets) f)

/-- `handleMsg` up to the engine's own handler, which then gets the object that was received. -/
def handleMsg (maxView : UInt64) (nodes : List Nat) (d : Draws) (f : Fuzzer) (m : Message) :
    Except String (Fuzzer × List Sent) :=
  match f.receive maxView m with
  | none => pure (f, [])
  | some g => protocolMutate nodes d g

theorem protocolMutate_eq (f : Fuzzer) :
    protocolMutate nodes d f = .ok (sendPackets (randomSendNodes nodes d.nodes)
      (d.pair (randomSendProtocol f.state.curState (randomSendNodes nodes d.nodes) d.packets))
        f) := by
  simp [protocolMutate, randomSendProtocol, pure, Except.pure]

/-! ## Effect on the node -/

variable (chosen : List Nat) (l : List (Nat × MutateDraws)) (f : Fuzzer) (maxView : UInt64)
  (nodes : List Nat)

/-- The fields that a mutator did not choose are those of its seed. -/
def Mutation.Spares (c : Mutation) (m : Message) : Prop :=
  (c.draws.chooseView % 2 ≠ 0 → m.view = c.old.view) ∧
    (c.draws.chooseTimestamp % 2 ≠ 0 → m.timestamp = c.old.timestamp) ∧
    (c.packet = 3 ∨ c.draws.chooseFrom % 2 ≠ 0 → m.generatedFrom = c.old.generatedFrom) ∧
    (c.packet = 3 ∨ c.draws.chooseHash % 2 ≠ 0 → m.hash = c.old.hash) ∧
    (c.packet = 3 ∨ c.draws.chooseVersion % 2 ≠ 0 → m.version = c.old.version) ∧
    (c.packet = 3 ∨ c.draws.chooseType % 2 ≠ 0 → m.packetType = c.old.packetType) ∧
    m.body = c.old.body

/-- After every message: the object that the engine goes on with is as received, every kept seed is
as recorded, and what a mutator returned is another object with the unchosen fields of its seed. -/
def Undisturbed : Fuzzer → List (Message × Draws) → Prop
  | _, [] => True
  | f, (m, d) :: rest =>
    ∃ h out, handleMsg maxView nodes d f m = .ok (h, out) ∧
      ((f.receive maxView m).isSome → h.heap f.next = m) ∧
      (∀ seed ∈ h.state.kept, h.heap seed.object = seed.recorded) ∧
      (∀ e ∈ out, ∀ c ∈ e.mutation, c.returned ≠ c.given ∧ c.Spares e.contents) ∧
      Undisturbed h rest

/-- No message comes in while a type that is drawn for it has a seed, its own included. -/
def Unseeded : Fuzzer → List (Message × Draws) → Prop
  | _, [] => True
  | f, (m, d) :: rest =>
    match f.receive maxView m with
    | none => Unseeded f rest
    | some g =>
      (∀ packet ∈ randomSendProtocol g.state.curState (randomSendNodes nodes d.nodes) d.packets,
        g.state.seeds packet = []) ∧ Unseeded g rest

/-- The seeds are received objects and hold what they held when recorded. -/
def Fuzzer.Faithful : Prop :=
  ∀ seed ∈ f.state.kept, seed.object < f.next ∧ f.heap seed.object = seed.recorded

theorem mem_kept_handle {s s' : State} {m seed : Seed} {t} (h : s.handle m t = some s')
    (hs : seed ∈ s'.kept) : seed = m ∨ seed ∈ s.kept := by
  unfold State.handle at h
  split at h <;> simp only [Option.some.injEq, reduceCtorEq] at h
  all_goals
    subst h
    simp only [State.kept, mem_append, mem_singleton] at hs ⊢
    grind

theorem Fuzzer.Faithful.receive {maxView} {f g : Fuzzer} {m} (hf : f.Faithful)
    (h : f.receive maxView m = some g) : g.heap f.next = m ∧ g.Faithful := by
  simp only [Fuzzer.receive, Option.ite_none_left_eq_some, Option.map_eq_some_iff] at h
  obtain ⟨-, s, hs, rfl⟩ := h
  refine ⟨by simp, fun seed hseed => ?_⟩
  rcases mem_kept_handle hs hseed with rfl | hold
  · simp
  · have := hf seed hold
    simp only [Function.update_apply]
    grind

@[simp] theorem sendPacket_state (packet : Nat) (d : MutateDraws) :
    (sendPacket chosen packet d f).1.state = f.state := by
  unfold sendPacket
  repeat' split
  all_goals rfl

/-- A package type with a seed is sent by a mutator, which returns the object it was given. -/
theorem sendPacket_fresh_iff (packet : Nat) (d : MutateDraws) :
    (∀ e ∈ (sendPacket chosen packet d f).2, ∀ c ∈ e.mutation,
      c.returned ≠ c.given ∧ c.Spares e.contents) ↔ f.state.seeds packet = [] := by
  by_cases hlt : packet < 4
  · cases hs : f.state.seeds packet <;> simp [sendPacket, hlt, hs]
  · have hs : f.state.seeds packet = [] := by unfold State.seeds; split <;> simp_all
    simp [sendPacket, hlt, hs]

theorem sendPackets_fresh_iff :
    (∀ e ∈ (sendPackets chosen l f).2, ∀ c ∈ e.mutation,
      c.returned ≠ c.given ∧ c.Spares e.contents) ↔ ∀ x ∈ l, f.state.seeds x.1 = [] := by
  induction l generalizing f with
  | nil => simp [sendPackets]
  | cons _ _ ih =>
    simp only [sendPackets, forall_mem_append, forall_mem_cons, sendPacket_fresh_iff, ih,
      sendPacket_state]

theorem sendPackets_of_unseeded (h : ∀ x ∈ l, f.state.seeds x.1 = []) :
    (sendPackets chosen l f).1 = f := by
  induction l with
  | nil => rfl
  | cons x _ ih =>
    simp only [forall_mem_cons] at h
    have hx : (sendPacket chosen x.1 x.2 f).1 = f := by
      simp only [sendPacket, h.1]
      split <;> rfl
    simp [sendPackets, hx, ih h.2]

theorem forall_mem_pair {P : Nat → Prop} (d : Draws) (packets : List Nat) :
    (∀ x ∈ d.pair packets, P x.1) ↔ ∀ packet ∈ packets, P packet := by
  rw [Draws.pair, forall_mem_map, ← forall_mem_map, zipIdx_map_fst]

/-- The hook leaves the node alone on exactly the runs on which no mutator is called. -/
theorem undisturbed_iff_unseeded (inputs : List (Message × Draws)) :
    Undisturbed maxView nodes {} inputs ↔ Unseeded maxView nodes {} inputs := by
  suffices h : ∀ f : Fuzzer, f.Faithful →
      (Undisturbed maxView nodes f inputs ↔ Unseeded maxView nodes f inputs) from
    h {} (by simp [Fuzzer.Faithful, State.kept])
  induction inputs with
  | nil => simp [Undisturbed, Unseeded]
  | cons x _ ih =>
    intro f hf
    obtain ⟨m, d⟩ := x
    simp only [Undisturbed, Unseeded, handleMsg]
    cases hr : f.receive maxView m with
    | none =>
      simp only [pure, Except.pure, Except.ok.injEq, Prod.mk.injEq, ← ih f hf]
      constructor
      · rintro ⟨h, out, ⟨rfl, rfl⟩, -, -, -, hrest⟩
        exact hrest
      · intro hrest
        exact ⟨f, [], ⟨rfl, rfl⟩, by simp, fun seed hs => (hf seed hs).2, by simp, hrest⟩
    | some g =>
      obtain ⟨hm, hg⟩ := hf.receive hr
      simp only [protocolMutate_eq, ← forall_mem_pair d, Except.ok.injEq]
      constructor
      · rintro ⟨h, _, hsend, -, -, _, hrest⟩
        have hun := (sendPackets_fresh_iff _ _ g).mp (by rwa [hsend])
        have hsame := sendPackets_of_unseeded (randomSendNodes nodes d.nodes) _ g hun
        rw [hsend] at hsame
        exact ⟨hun, (ih g hg).mp (hsame ▸ hrest)⟩
      · rintro ⟨hun, hrest⟩
        refine ⟨_, _, rfl, ?_⟩
        rw [sendPackets_fresh_iff, sendPackets_of_unseeded _ _ g hun]
        exact ⟨fun _ => hm, fun seed hs => (hg seed hs).2, hun, (ih g hg).mpr hrest⟩

/-- A node gets a pre-prepare message of view 105, and its own hook sets the view to 5 before the
engine looks at it. -/
theorem handleMsg_rewrites_received : ¬ Undisturbed 1000 [1] {} [({ packetType := 0, view := 105 },
      { packets := fun _ => 2, mutations := fun _ => { viewTemp := 1 } })] := by
  rintro ⟨h, _, hok, hm, -⟩
  have hview := congrArg (fun r => r.toOption.map fun p : Fuzzer × _ => (p.1.heap 0).view) hok
  change some 5 = some (h.heap 0).view at hview
  rw [hm (by decide)] at hview
  exact absurd hview (by decide)

/-! ## What is sent to whom -/

/-- What one call sends to `node`. -/
def received (d : Draws) (f : Fuzzer) (node : Nat) : Except String (List Message) :=
  (protocolMutate nodes d f).map fun r =>
    (r.2.filter fun e => node ∈ e.recipients).map Sent.contents

/-- One call sends each chosen node one message, of the type drawn for it, and nothing to others. -/
def CarriedOut (d : Draws) (f : Fuzzer) : Prop :=
  let chosen := randomSendNodes nodes d.nodes
  let packets := randomSendProtocol f.state.curState chosen d.packets
  packets.length = chosen.length ∧ (∀ packet ∈ packets, packet < 4) ∧
    (∀ (i : Nat) node, chosen[i]? = some node →
      ∃ m, received nodes d f node = .ok [m] ∧ packets[i]? = some m.packetType) ∧
    ∀ node ∉ chosen, received nodes d f node = .ok []

/-- The message built for a package type carries that type: a new one is a pre-prepare or a view
change message, and a mutator may write the type of a seed. -/
def Fuzzer.Typed (d : MutateDraws) (packet : Nat) : Prop :=
  match f.state.seeds packet with
  | [] => packet = 0 ∨ packet = 3
  | seed :: _ =>
    if packet ≠ 3 ∧ d.chooseType % 2 = 0 then d.randType % 12 = packet
    else (f.heap seed.object).packetType = packet

theorem packageType_lt_iff :
    packageType curState temp < 4 ↔ ∀ state ∈ curState, state < 4 ∨ temp % 5 ≠ 2 := by
  cases curState with
  | none => simp [packageType]; omega
  | some =>
    simp only [packageType, Option.mem_some_iff, forall_eq']
    grind

theorem sendPackets_recipients : ∀ e ∈ (sendPackets chosen l f).2, e.recipients = chosen := by
  induction l generalizing f with
  | nil => simp [sendPackets]
  | cons _ _ ih =>
    simp only [sendPackets, mem_append]
    rintro e (he | he)
    · unfold sendPacket at he
      repeat' split at he
      all_goals simp_all
    · exact ih _ e he

theorem length_sendPackets (h : ∀ x ∈ l, x.1 < 4) :
    (sendPackets chosen l f).2.length = l.length := by
  induction l generalizing f with
  | nil => simp [sendPackets]
  | cons x _ ih =>
    simp only [forall_mem_cons] at h
    have hx : (sendPacket chosen x.1 x.2 f).2.length = 1 := by
      simp only [sendPacket, h.1, if_true]
      split <;> rfl
    simp [sendPackets, hx, ih _ h.2, Nat.add_comm]

/-- Every message goes to all the chosen nodes. -/
theorem received_eq (d : Draws) (node : Nat) :
    received nodes d f node = .ok (if node ∈ randomSendNodes nodes d.nodes then
      (sendPackets (randomSendNodes nodes d.nodes) (d.pair (randomSendProtocol f.state.curState
        (randomSendNodes nodes d.nodes) d.packets)) f).2.map Sent.contents else []) := by
  simp only [received, protocolMutate_eq, Except.map]
  rw [filter_congr fun e he => by rw [sendPackets_recipients _ _ f e he]]
  split
  · rw [filter_eq_self.mpr (by simp_all)]
  · rw [filter_eq_nil_iff.mpr (by simp_all), map_nil]

theorem typed_iff_sendPacket (packet : Nat) (d : MutateDraws) (h : packet < 4) :
    (∃ m, (sendPacket chosen packet d f).2.map Sent.contents = [m] ∧ packet = m.packetType) ↔
      f.Typed d packet := by
  cases hs : f.state.seeds packet with
  | nil =>
    simp only [sendPacket, Fuzzer.Typed, h, hs, if_true]
    by_cases h3 : packet = 3 <;> simp [h3, createPBFTMsg, createViewChangeMsg]
  | cons =>
    simp only [sendPacket, Fuzzer.Typed, h, hs, if_true]
    by_cases h3 : packet = 3 <;> simp [h3, mutatePbftMsg, mutateViewChange, eq_comm]
    split <;> rfl

/-- A call does what was drawn for it exactly if it draws at most one node, and for that node a
defined type that its message carries. -/
theorem carriedOut_iff (d : Draws) :
    CarriedOut nodes d f ↔ randomSendNodes nodes d.nodes = [] ∨
      ∃ node, randomSendNodes nodes d.nodes = [node] ∧
        (∀ state ∈ f.state.curState, state < 4 ∨ d.packets 0 % 5 ≠ 2) ∧
        f.Typed (d.mutations 0) (packageType f.state.curState (d.packets 0)) := by
  simp only [CarriedOut, received_eq, ← packageType_lt_iff, Except.ok.injEq]
  rcases randomSendNodes nodes d.nodes with _ | ⟨node, _ | ⟨_, _⟩⟩
  · simp [randomSendProtocol]
  · have htyped := typed_iff_sendPacket [node] f (packageType f.state.curState (d.packets 0))
      (d.mutations 0)
    simp +contextual [randomSendProtocol, sendPackets, Draws.pair, getElem?_singleton, ← htyped]
  · simp only [reduceCtorEq, cons.injEq, and_false, false_and, exists_false, or_self, iff_false]
    rintro ⟨-, hlt, hone, -⟩
    -- the first node gets a message for each of the chosen ones
    obtain ⟨m, hm, -⟩ := hone 0 node rfl
    rw [if_pos mem_cons_self] at hm
    have hlen := congrArg length hm
    rw [length_map, length_sendPackets _ _ f ((forall_mem_pair d _).mpr hlt)] at hlen
    simp [randomSendProtocol, Draws.pair] at hlen

/-- Two nodes are drawn, and each gets both messages. -/
theorem two_nodes_get_two_messages : ∃ m g, Fuzzer.receive 1000 {} m = some g ∧
    ¬ CarriedOut [1, 2] {} g := by
  refine ⟨{ packetType := 0 }, _, rfl, ?_⟩
  rintro ⟨-, -, hone, -⟩
  obtain ⟨m, hm, -⟩ := hone 0 1 rfl
  have hlen := congrArg (fun r => r.toOption.map length) hm
  exact absurd (show some 2 = some 1 from hlen) (by decide)

end Loki.Fisco.FuzzEngine
