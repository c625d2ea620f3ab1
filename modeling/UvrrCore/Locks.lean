import UvrrCore.Ids
import UvrrCore.OrdMap

/-!
# The lock table

One table serves every client: the stored lease of each lock, and beside it the highest generation
the lock ever handed out or reserved, which outlives the lease. A lease is live up to its expiry on
the replicated clock, the slot an operation applies at.

`Outcome` says once what a request can do. From it come the two invariants: a stored lease carries
the watermark of its lock, so no generation is handed out twice; and the lease of a client stands
until it expires, is released by its holder and generation, or is broken.

## Main results

* `Service.executeRequest_outcome`: the cases of a request.
* `Service.Watermarked.step`: the watermark bounds every generation spent.
* `Service.stands`: what ends a lease.
* `Service.fencing`: the table over whole histories of requests.
-/

namespace UvrrCore

namespace Locks

/-- A client's identity: two halves of 64 bits. -/
structure ClientId where
  msb : Nat
  lsb : Nat
deriving DecidableEq, Repr

/-- The holder of a cleared record. -/
def ClientId.nil : ClientId := { msb := 0, lsb := 0 }

/-- An identity a request can carry: the door of the wire refuses the nil one. -/
abbrev NamedClient := { client : ClientId // client ≠ ClientId.nil }

def ClientId.new (msb lsb : Nat) : Option NamedClient :=
  if h : (⟨msb, lsb⟩ : ClientId) ≠ ClientId.nil then some ⟨⟨msb, lsb⟩, h⟩ else none

structure Lease where
  leaseId : Nat
  holder : ClientId
  expiry : Nat
  window : Nat
deriving DecidableEq, Repr

inductive Request where
  | get (lockId : Nat)
  | set (client : NamedClient) (lockId window : Nat)
  | release (client : NamedClient) (lockId leaseId : Nat)
  | breakLock (lockId : Nat)
deriving DecidableEq, Repr

inductive Response where
  | get (lockId : Nat) (lease : Option Lease) (executedAt : Nat)
  | set (lockId : Nat) (granted : Bool) (lease : Option Lease) (executedAt : Nat)
  | release (lockId : Nat) (released : Bool) (lease : Option Lease) (executedAt : Nat)
  | breakLock (lockId : Nat) (broken : Bool) (lease : Option Lease) (executedAt : Nat)
deriving DecidableEq, Repr

/-- The table: the stored leases, and the generation watermark of each lock. -/
structure Service where
  locks : OrdMap Nat Lease
  generations : OrdMap Nat Nat

/-- The table as one value. -/
structure StateSnapshot where
  locks : OrdMap Nat Lease
  generations : OrdMap Nat Nat

/-- The largest 64-bit value. -/
abbrev maxU64 : Nat := u64Bound - 1

def saturatingAdd (x y : Nat) : Nat := min (x + y) maxU64

namespace Service

def empty : Service where
  locks := OrdMap.empty
  generations := OrdMap.empty

/-- The stored lease of a lock, if it expires after the clock. -/
def live (s : Service) (clock lockId : Nat) : Option Lease :=
  (s.locks.get? lockId).filter fun lease => decide (clock < lease.expiry)

/-- A lease stored, with its generation as the watermark. -/
def store (s : Service) (lockId : Nat) (lease : Lease) : Service where
  locks := s.locks.insert lockId lease
  generations := s.generations.insert lockId lease.leaseId

/-- A renewal keeps the generation of the lease held; a grant takes one past the watermark. -/
def grant (s : Service) (clock lockId : Nat) (client : NamedClient) (window : Nat)
    (held : Option Lease) : Service × Lease :=
  let spent := (s.generations.get? lockId).getD 0
  let leaseId := match held with
    | some incumbent => incumbent.leaseId
    | none => saturatingAdd spent 1
  let lease := { leaseId, holder := client.1, expiry := saturatingAdd clock window, window }
  (s.store lockId lease, lease)

/-- The record a break leaves: never live, with the next generation reserved. -/
def keeper (broken : Lease) : Lease where
  leaseId := saturatingAdd broken.leaseId 1
  holder := ClientId.nil
  expiry := 0
  window := 0

/-- **One decoded request.** -/
def executeRequest (s : Service) (clock : Nat) : Request → Service × Response
  | .get lockId => (s, .get lockId (s.live clock lockId) clock)
  | .set client lockId window =>
    let held := s.live clock lockId
    if (held.all fun lease => decide (lease.holder = client.1)) && decide (0 < window) then
      let granted := s.grant clock lockId client window held
      (granted.1, .set lockId true (some granted.2) clock)
    else (s, .set lockId false held clock)
  | .release client lockId leaseId =>
    let held := s.live clock lockId
    if held.any fun lease => decide (lease.holder = client.1 ∧ lease.leaseId = leaseId) then
      ({ s with locks := s.locks.erase lockId }, .release lockId true none clock)
    else (s, .release lockId false held clock)
  | .breakLock lockId =>
    match s.locks.get? lockId with
    | some broken =>
      (({ s with locks := s.locks.erase lockId } : Service).store lockId (keeper broken),
        .breakLock lockId true (some (keeper broken)) clock)
    | none => (s, .breakLock lockId false none clock)

/-- One committed payload: one that does not decode leaves the table as it is. -/
def execute (decode : List UInt8 → Option Request) (encode : Response → List UInt8)
    (s : Service) (clock : Nat) (payload : List UInt8) : Service × Option (List UInt8) :=
  match decode payload with
  | none => (s, none)
  | some request =>
    let executed := s.executeRequest clock request
    (executed.1, some (encode executed.2))

def isEmpty (s : Service) : Bool := s.locks.entries.isEmpty && s.generations.entries.isEmpty

def snapshot (s : Service) : StateSnapshot where
  locks := s.locks
  generations := s.generations

/-- A snapshot installed whole, over whatever the table held. -/
def restore (_s : Service) (snapshot : StateSnapshot) : Service where
  locks := snapshot.locks
  generations := snapshot.generations

/-! ### What a request does -/

/-- The generation a grant hands out. -/
def nextGeneration (s : Service) (clock lockId : Nat) : Nat :=
  match s.live clock lockId with
  | some held => held.leaseId
  | none => saturatingAdd ((s.generations.get? lockId).getD 0) 1

/-- **The cases of a request.** -/
inductive Outcome (s : Service) (clock : Nat) : Request → Service → Response → Prop
  | read (lockId : Nat) : Outcome s clock (.get lockId) s (.get lockId (s.live clock lockId) clock)
  | granted (client : NamedClient) (lockId window : Nat) (lease : Lease)
      (hheld : ∀ held, s.live clock lockId = some held → held.holder = client.1)
      (hid : lease.leaseId = s.nextGeneration clock lockId) (hholder : lease.holder = client.1) :
      Outcome s clock (.set client lockId window) (s.store lockId lease)
        (.set lockId true (some lease) clock)
  | refused (client : NamedClient) (lockId window : Nat) :
      Outcome s clock (.set client lockId window) s
        (.set lockId false (s.live clock lockId) clock)
  | released (client : NamedClient) (lockId : Nat) (held : Lease)
      (hheld : s.live clock lockId = some held) (hholder : held.holder = client.1) :
      Outcome s clock (.release client lockId held.leaseId)
        { s with locks := s.locks.erase lockId } (.release lockId true none clock)
  | kept (client : NamedClient) (lockId leaseId : Nat) :
      Outcome s clock (.release client lockId leaseId) s
        (.release lockId false (s.live clock lockId) clock)
  | broke (lockId : Nat) (broken : Lease) (hstored : s.locks.get? lockId = some broken) :
      Outcome s clock (.breakLock lockId)
        (({ s with locks := s.locks.erase lockId } : Service).store lockId (keeper broken))
        (.breakLock lockId true (some (keeper broken)) clock)
  | free (lockId : Nat) (hnone : s.locks.get? lockId = none) :
      Outcome s clock (.breakLock lockId) s (.breakLock lockId false none clock)

theorem executeRequest_outcome (s : Service) (clock : Nat) (request : Request) :
    Outcome s clock request (s.executeRequest clock request).1
      (s.executeRequest clock request).2 := by
  cases request with
  | get lockId => exact .read lockId
  | set client lockId window =>
    simp only [executeRequest]
    split
    · rename_i hlegal
      rw [Bool.and_eq_true] at hlegal
      refine .granted client lockId window _ (fun held hheld => ?_) ?_ rfl
      · rw [hheld] at hlegal
        simpa using hlegal.1
      · unfold nextGeneration
        cases s.live clock lockId with
        | none => rfl
        | some held => rfl
    · exact .refused client lockId window
  | release client lockId leaseId =>
    simp only [executeRequest]
    split
    · rename_i hlegal
      cases hheld : s.live clock lockId with
      | none =>
        rw [hheld] at hlegal
        cases hlegal
      | some held =>
        rw [hheld] at hlegal
        obtain ⟨hholder, rfl⟩ : held.holder = client.1 ∧ held.leaseId = leaseId := by
          simpa using hlegal
        exact .released client lockId held hheld hholder
    · exact .kept client lockId leaseId
  | breakLock lockId =>
    simp only [executeRequest]
    cases hstored : s.locks.get? lockId with
    | none => exact .free lockId hstored
    | some broken => exact .broke lockId broken hstored

/-! ### Histories -/

end Service

/-- A request executed, and the reply to it. -/
structure Event where
  clock : Nat
  request : Request
  response : Response

namespace Event

/-- The client got the lease. -/
def Granted (e : Event) (client : NamedClient) (lockId : Nat) (lease : Lease) : Prop :=
  (∃ window, e.request = .set client lockId window) ∧
    e.response = .set lockId true (some lease) e.clock

/-- The client's release of a generation retired it. -/
def Released (e : Event) (client : NamedClient) (lockId leaseId : Nat) : Prop :=
  e.request = .release client lockId leaseId ∧ e.response = .release lockId true none e.clock

/-- A break left the record. -/
def Broke (e : Event) (lockId : Nat) (record : Lease) : Prop :=
  e.request = .breakLock lockId ∧ e.response = .breakLock lockId true (some record) e.clock

/-- The generation was handed out or reserved. -/
def Spent (e : Event) (lockId generation : Nat) : Prop :=
  (∃ client lease, e.Granted client lockId lease ∧ lease.leaseId = generation) ∨
    ∃ record, e.Broke lockId record ∧ record.leaseId = generation

end Event

namespace Service

/-- A request at its slot, executed. -/
def eventOf (s : Service) (step : Nat × Request) : Event where
  clock := step.1
  request := step.2
  response := (s.executeRequest step.1 step.2).2

def next (s : Service) (step : Nat × Request) : Service := (s.executeRequest step.1 step.2).1

/-- The table behind a list of requests at their slots. -/
def run (s : Service) (steps : List (Nat × Request)) : Service := steps.foldl next s

def events (s : Service) : List (Nat × Request) → List Event
  | [] => []
  | step :: steps => s.eventOf step :: (s.next step).events steps

theorem run_append (s : Service) (first second : List (Nat × Request)) :
    s.run (first ++ second) = (s.run first).run second := List.foldl_append

theorem events_append (s : Service) (first second : List (Nat × Request)) :
    s.events (first ++ second) = s.events first ++ (s.run first).events second := by
  induction first generalizing s with
  | nil => rfl
  | cons step first ih =>
    rw [List.cons_append, events, ih, events, List.cons_append]
    rfl

/-- An event of a history is that of a request, between the requests before and behind it. -/
theorem events_split {s : Service} {steps : List (Nat × Request)} {before after : List Event}
    {event : Event} (h : s.events steps = before ++ event :: after) :
    ∃ first step second, steps = first ++ step :: second ∧ before = s.events first ∧
      event = (s.run first).eventOf step ∧ after = ((s.run first).next step).events second := by
  induction steps generalizing s before with
  | nil => exact absurd h.symm (List.append_ne_nil_of_right_ne_nil _ (List.cons_ne_nil _ _))
  | cons step steps ih =>
    cases before with
    | nil =>
      obtain ⟨hevent, hafter⟩ := List.cons.inj h
      exact ⟨[], step, steps, rfl, rfl, hevent.symm, hafter.symm⟩
    | cons e before =>
      obtain ⟨he, hrest⟩ := List.cons.inj h
      obtain ⟨first, step', second, rfl, rfl, hevent, hafter⟩ := ih hrest
      exact ⟨step :: first, step', second, rfl, by rw [← he]; rfl, hevent, hafter⟩

/-! ### Generations -/

/-- The watermark of a lock. -/
def watermark (s : Service) (lockId : Nat) : Nat := (s.generations.get? lockId).getD 0

/-- No generation is at the end of its range. -/
def Unsaturated (s : Service) : Prop := ∀ lockId, s.watermark lockId < maxU64

/-- **A stored lease carries the watermark of its lock**, which bounds what the lock spent. -/
structure Watermarked (s : Service) (history : List Event) : Prop where
  stored : ∀ lockId lease, s.locks.get? lockId = some lease → lease.leaseId = s.watermark lockId
  spent : ∀ lockId generation, ∀ event ∈ history, event.Spent lockId generation →
    generation ≤ s.watermark lockId

theorem saturatingAdd_one {x : Nat} (h : x < maxU64) : saturatingAdd x 1 = x + 1 := by
  unfold saturatingAdd
  omega

theorem live_eq_some {s : Service} {clock lockId : Nat} {lease : Lease} :
    s.live clock lockId = some lease ↔ s.locks.get? lockId = some lease ∧ clock < lease.expiry := by
  rw [live, Option.filter_eq_some_iff, decide_eq_true_iff]

theorem watermark_store (s : Service) (lockId : Nat) (lease : Lease) (other : Nat) :
    (s.store lockId lease).watermark other =
      if other = lockId then lease.leaseId else s.watermark other := by
  unfold watermark store
  rw [OrdMap.get?_insert]
  split
  · rfl
  · rfl

theorem locks_store (s : Service) (lockId : Nat) (lease : Lease) (other : Nat) :
    (s.store lockId lease).locks.get? other =
      if other = lockId then some lease else s.locks.get? other :=
  OrdMap.get?_insert _ _ _ _

/-- A grant over no live lease takes one past the watermark, a renewal the watermark itself. -/
theorem Watermarked.nextGeneration {s : Service} {history : List Event}
    (h : s.Watermarked history) (hroom : s.Unsaturated) (clock lockId : Nat) :
    s.nextGeneration clock lockId =
      if s.live clock lockId = none then s.watermark lockId + 1 else s.watermark lockId := by
  unfold Service.nextGeneration
  cases hlive : s.live clock lockId with
  | none =>
    rw [if_pos rfl]
    exact saturatingAdd_one (hroom lockId)
  | some held =>
    rw [if_neg (Option.some_ne_none held)]
    exact h.stored lockId held (live_eq_some.mp hlive).1

/-- A generation spent is the watermark its request leaves. -/
theorem Outcome.spent {s s' : Service} {clock : Nat} {request : Request} {response : Response}
    (h : Outcome s clock request s' response) {lockId generation : Nat}
    (hspent : Event.Spent ⟨clock, request, response⟩ lockId generation) :
    s'.watermark lockId = generation := by
  rcases hspent with ⟨client, lease, ⟨⟨window, hrequest⟩, hresponse⟩, rfl⟩ |
    ⟨record, ⟨hrequest, hresponse⟩, rfl⟩
  · cases h with
    | granted =>
      cases hresponse
      rw [watermark_store, if_pos rfl]
    | _ => cases hresponse
  · cases h with
    | broke lockId broken hstored =>
      cases hresponse
      rw [watermark_store, if_pos rfl]
    | _ => cases hresponse

/-- No request lowers a watermark. -/
theorem Outcome.watermark_le {s s' : Service} {clock : Nat} {request : Request}
    {response : Response} {history : List Event} (h : Outcome s clock request s' response)
    (hs : s.Watermarked history) (hroom : s.Unsaturated) (lockId : Nat) :
    s.watermark lockId ≤ s'.watermark lockId := by
  cases h with
  | granted client locked window lease hheld hid hholder =>
    rw [watermark_store, hid, hs.nextGeneration hroom]
    split
    · rename_i heq
      rw [heq]
      split
      · exact Nat.le_succ _
      · exact Nat.le_refl _
    · exact Nat.le_refl _
  | broke locked broken hstored =>
    rw [watermark_store]
    split
    · rename_i heq
      subst heq
      show _ ≤ saturatingAdd broken.leaseId 1
      rw [hs.stored _ _ hstored, saturatingAdd_one (hroom _)]
      exact Nat.le_succ _
    · exact Nat.le_refl _
  | _ => exact Nat.le_refl _

/-- Every stored lease carries the watermark its request leaves. -/
theorem Outcome.stored {s s' : Service} {clock : Nat} {request : Request} {response : Response}
    {history : List Event} (h : Outcome s clock request s' response) (hs : s.Watermarked history)
    {lockId : Nat} {lease : Lease} (hlease : s'.locks.get? lockId = some lease) :
    lease.leaseId = s'.watermark lockId := by
  have hstore : ∀ (s : Service) (locked : Nat) (record : Lease),
      (∀ lockId lease, s.locks.get? lockId = some lease → lease.leaseId = s.watermark lockId) →
      ∀ lockId lease, (s.store locked record).locks.get? lockId = some lease →
        lease.leaseId = (s.store locked record).watermark lockId := by
    intro s locked record hs lockId lease hlease
    rw [locks_store] at hlease
    rw [watermark_store]
    split at hlease
    · rename_i heq
      rw [if_pos heq, ← Option.some.inj hlease]
    · rename_i hne
      rw [if_neg hne]
      exact hs lockId lease hlease
  have herase : ∀ locked lockId lease,
      (s.locks.erase locked).get? lockId = some lease → lease.leaseId = s.watermark lockId := by
    intro locked lockId lease hlease
    rw [OrdMap.get?_erase] at hlease
    split at hlease
    · cases hlease
    · exact hs.stored lockId lease hlease
  cases h with
  | granted client locked window record => exact hstore s locked record hs.stored _ _ hlease
  | released client locked held => exact herase locked _ _ hlease
  | broke locked broken =>
    exact hstore { s with locks := s.locks.erase locked } locked _ (herase locked) _ _ hlease
  | _ => exact hs.stored _ _ hlease

/-- **One request keeps the watermarks.** -/
theorem Watermarked.step {s : Service} {history : List Event} (h : s.Watermarked history)
    (hroom : s.Unsaturated) (step : Nat × Request) :
    (s.next step).Watermarked (history ++ [s.eventOf step]) := by
  have hout := s.executeRequest_outcome step.1 step.2
  refine ⟨fun lockId lease => hout.stored h, fun lockId generation event hmem hspent => ?_⟩
  rcases List.mem_append.mp hmem with hmem | hmem
  · exact (h.spent lockId generation event hmem hspent).trans (hout.watermark_le h hroom lockId)
  · rw [List.mem_singleton.mp hmem] at hspent
    exact (hout.spent hspent).ge

/-- The tables before each request of a list have room for one more generation. -/
def Roomy (s : Service) (steps : List (Nat × Request)) : Prop :=
  ∀ before step after, steps = before ++ step :: after → (s.run before).Unsaturated

theorem watermarked_run {steps : List (Nat × Request)} (hroom : empty.Roomy steps) :
    (empty.run steps).Watermarked (empty.events steps) := by
  induction steps using List.reverseRecOn with
  | nil => exact ⟨fun _ _ h => (nomatch h), fun _ _ _ hmem => absurd hmem List.not_mem_nil⟩
  | append_singleton before step ih =>
    have hbefore : empty.Roomy before := fun first mid last hsplit =>
      hroom first mid (last ++ [step]) (by rw [hsplit]; simp)
    rw [run_append, events_append]
    exact (ih hbefore).step (hroom before step [] rfl) step

/-! ### Leases -/

/-- A live lease stands through a request that neither grants its holder, releases its generation
nor breaks its lock. -/
theorem Outcome.keeps {s s' : Service} {clock : Nat} {request : Request} {response : Response}
    (h : Outcome s clock request s' response) {client : NamedClient} {lockId : Nat} {lease : Lease}
    (hstored : s.locks.get? lockId = some lease) (hholder : lease.holder = client.1)
    (hlive : clock < lease.expiry)
    (hgrant : ∀ other, ¬Event.Granted ⟨clock, request, response⟩ client lockId other)
    (hrelease : ¬Event.Released ⟨clock, request, response⟩ client lockId lease.leaseId)
    (hbreak : ∀ record, ¬Event.Broke ⟨clock, request, response⟩ lockId record) :
    s'.locks.get? lockId = some lease := by
  have hheld : s.live clock lockId = some lease := live_eq_some.mpr ⟨hstored, hlive⟩
  cases h with
  | granted other locked window record hfree hid hother =>
    rw [locks_store]
    split
    · rename_i heq
      subst heq
      -- only the holder can be granted over its live lease
      have hsame : other = client := Subtype.ext ((hfree lease hheld).symm.trans hholder)
      subst hsame
      exact absurd ⟨⟨window, rfl⟩, rfl⟩ (hgrant record)
    · exact hstored
  | released other locked held hlocked hother =>
    show (s.locks.erase locked).get? lockId = _
    rw [OrdMap.get?_erase]
    split
    · rename_i heq
      subst heq
      have hsame : held = lease := Option.some.inj (hlocked.symm.trans hheld)
      subst hsame
      have hclient : other = client := Subtype.ext (hother.symm.trans hholder)
      subst hclient
      exact absurd ⟨rfl, rfl⟩ hrelease
    · exact hstored
  | broke locked broken hbroken =>
    rw [locks_store]
    split
    · rename_i heq
      subst heq
      exact absurd ⟨rfl, rfl⟩ (hbreak (keeper broken))
    · rename_i hne
      show (s.locks.erase locked).get? lockId = _
      rw [OrdMap.get?_erase, if_neg hne]
      exact hstored
  | _ => exact hstored

/-- **What ends a lease.** A stored lease stands through requests up to a clock before its expiry,
as long as its holder is not granted again, does not release its generation, and no break removes
it. -/
theorem stands {s : Service} {steps : List (Nat × Request)} {client : NamedClient} {lockId : Nat}
    {lease : Lease} {clock : Nat} (hstored : s.locks.get? lockId = some lease)
    (hholder : lease.holder = client.1) (hlive : clock < lease.expiry)
    (hclocks : ∀ step ∈ steps, step.1 ≤ clock)
    (hgrant : ∀ event ∈ s.events steps, ∀ other, ¬event.Granted client lockId other)
    (hrelease : ∀ event ∈ s.events steps, ¬event.Released client lockId lease.leaseId)
    (hbreak : ∀ event ∈ s.events steps, ∀ record, ¬event.Broke lockId record) :
    (s.run steps).locks.get? lockId = some lease := by
  induction steps generalizing s with
  | nil => exact hstored
  | cons step steps ih =>
    have hkept : (s.next step).locks.get? lockId = some lease :=
      (s.executeRequest_outcome step.1 step.2).keeps hstored hholder
        ((hclocks step List.mem_cons_self).trans_lt hlive)
        (hgrant (s.eventOf step) List.mem_cons_self)
        (hrelease (s.eventOf step) List.mem_cons_self)
        (hbreak (s.eventOf step) List.mem_cons_self)
    exact ih hkept (fun later hmem => hclocks later (List.mem_cons_of_mem _ hmem))
      (fun event hmem => hgrant event (List.mem_cons_of_mem _ hmem))
      (fun event hmem => hrelease event (List.mem_cons_of_mem _ hmem))
      (fun event hmem => hbreak event (List.mem_cons_of_mem _ hmem))

/-- A granted lease is the client's, and stored. -/
theorem Outcome.granted_lease {s s' : Service} {clock : Nat} {request : Request}
    {response : Response} (h : Outcome s clock request s' response) {client : NamedClient}
    {lockId : Nat} {lease : Lease}
    (hgranted : Event.Granted ⟨clock, request, response⟩ client lockId lease) :
    s'.locks.get? lockId = some lease ∧ lease.holder = client.1 ∧
      (∀ held, s.live clock lockId = some held → held.holder = client.1) ∧
      lease.leaseId = s.nextGeneration clock lockId := by
  obtain ⟨⟨window, hrequest⟩, hresponse⟩ := hgranted
  cases h with
  | granted other locked window' record hheld hid hholder =>
    cases hrequest
    cases hresponse
    exact ⟨by rw [locks_store, if_pos rfl], hholder, hheld, hid⟩
  | _ => cases hresponse

/-- The client holds a lease the history granted it last: the lease has not expired at the clock,
and neither the client's release nor a break has come since. -/
def HoldsLive (history : List Event) (clock lockId : Nat) (client : NamedClient) (lease : Lease) :
    Prop :=
  ∃ before event after, history = before ++ event :: after ∧ event.Granted client lockId lease ∧
    clock < lease.expiry ∧ (∀ later ∈ after, ∀ other, ¬later.Granted client lockId other) ∧
    (∀ later ∈ after, ¬later.Released client lockId lease.leaseId) ∧
    ∀ later ∈ after, ∀ record, ¬later.Broke lockId record

/-- **A lease held is the live one of the table.** -/
theorem HoldsLive.live {s : Service} {steps : List (Nat × Request)} {clock lockId : Nat}
    {client : NamedClient} {lease : Lease} (h : HoldsLive (s.events steps) clock lockId client lease)
    (hclocks : ∀ step ∈ steps, step.1 ≤ clock) :
    (s.run steps).live clock lockId = some lease ∧ lease.holder = client.1 := by
  obtain ⟨before, event, after, hsplit, hgranted, hlive, hgrant, hrelease, hbreak⟩ := h
  obtain ⟨first, step, second, rfl, rfl, rfl, rfl⟩ := events_split hsplit
  obtain ⟨hstored, hholder, -⟩ :=
    ((s.run first).executeRequest_outcome step.1 step.2).granted_lease hgranted
  have hkept := stands hstored hholder hlive (fun later hmem => hclocks later
    (List.mem_append_right _ (List.mem_cons_of_mem _ hmem))) hgrant hrelease hbreak
  rw [run_append]
  exact ⟨live_eq_some.mpr ⟨hkept, hlive⟩, hholder⟩

/-! ### Fencing -/

/-- **Fencing**, of a list of requests at their slots executed from the empty table. -/
structure Fenced (steps : List (Nat × Request)) : Prop where
  /-- A grant over no live lease has a generation above all that were spent before. -/
  fresh : ∀ before step after, steps = before ++ step :: after → ∀ client lockId lease,
    ((empty.run before).eventOf step).Granted client lockId lease →
    (empty.run before).live step.1 lockId = none →
    ∀ event ∈ empty.events before, ∀ generation, event.Spent lockId generation →
      generation < lease.leaseId
  /-- A grant over a live lease is its holder's and keeps the generation. -/
  renewal : ∀ before step after, steps = before ++ step :: after → ∀ client lockId lease held,
    ((empty.run before).eventOf step).Granted client lockId lease →
    (empty.run before).live step.1 lockId = some held →
    held.holder = client.1 ∧ lease.leaseId = held.leaseId
  /-- At no clock do two clients hold a lock. -/
  exclusive : ∀ before after, steps = before ++ after → ∀ clock,
    (∀ step ∈ before, step.1 ≤ clock) → ∀ lockId client client' lease lease',
    HoldsLive (empty.events before) clock lockId client lease →
    HoldsLive (empty.events before) clock lockId client' lease' → client = client'
  /-- Behind the last grant of one client, another is granted only past its expiry, its release
  or a break. -/
  handover : ∀ before step after, steps = before ++ step :: after → ∀ client client' lockId lease',
    ((empty.run before).eventOf step).Granted client' lockId lease' → client ≠ client' →
    ∀ first event second lease, empty.events before = first ++ event :: second →
    event.Granted client lockId lease →
    (∀ later ∈ second, ∀ other, ¬later.Granted client lockId other) →
    lease.expiry ≤ step.1 ∨ (∃ later ∈ second, later.Released client lockId lease.leaseId) ∨
      ∃ later ∈ second, ∃ record, later.Broke lockId record
  /-- A snapshot restored anywhere leads on with the same replies to the same table. -/
  resume : ∀ before after, steps = before ++ after → ∀ other : Service,
    empty.events steps = empty.events before ++
      (other.restore (empty.run before).snapshot).events after ∧
    (other.restore (empty.run before).snapshot).run after = empty.run steps

/-- **The lock table fences.** Every list of requests at increasing slots, with generations below
saturation. -/
theorem fencing {steps : List (Nat × Request)} (hclocks : (steps.map Prod.fst).Pairwise (· < ·))
    (hroom : empty.Roomy steps) : Fenced steps := by
  have hroomy : ∀ before step after, steps = before ++ step :: after →
      (empty.run before).Watermarked (empty.events before) ∧ (empty.run before).Unsaturated := by
    intro before step after hsplit
    refine ⟨watermarked_run fun first mid last hbefore => hroom first mid (last ++ step :: after) ?_,
      hroom before step after hsplit⟩
    rw [hsplit, hbefore, List.append_assoc, List.cons_append]
  have hbefore : ∀ before step after, steps = before ++ step :: after →
      ∀ earlier ∈ before, earlier.1 ≤ step.1 := by
    intro before step after hsplit earlier hmem
    rw [hsplit, List.map_append, List.pairwise_append] at hclocks
    exact (hclocks.2.2 earlier.1 (List.mem_map_of_mem hmem) step.1 List.mem_cons_self).le
  refine ⟨?_, ?_, ?_, ?_, ?_⟩
  · intro before step after hsplit client lockId lease hgranted hfree event hmem generation hspent
    obtain ⟨hmarks, hunsaturated⟩ := hroomy before step after hsplit
    obtain ⟨-, -, -, hid⟩ :=
      ((empty.run before).executeRequest_outcome step.1 step.2).granted_lease hgranted
    rw [hid, hmarks.nextGeneration hunsaturated, if_pos hfree]
    exact Nat.lt_succ_of_le (hmarks.spent lockId generation event hmem hspent)
  · intro before step after hsplit client lockId lease held hgranted hheld
    obtain ⟨-, -, hholder, hid⟩ :=
      ((empty.run before).executeRequest_outcome step.1 step.2).granted_lease hgranted
    refine ⟨hholder held hheld, hid.trans ?_⟩
    unfold nextGeneration
    rw [hheld]
  · intro before after hsplit clock hpast lockId client client' lease lease' hlive hlive'
    obtain ⟨hstored, hholder⟩ := hlive.live hpast
    obtain ⟨hstored', hholder'⟩ := hlive'.live hpast
    rw [hstored] at hstored'
    rw [← Option.some.inj hstored'] at hholder'
    exact Subtype.ext (hholder.symm.trans hholder')
  · intro before step after hsplit client client' lockId lease' hgranted' hne first event second
      lease hevents hgranted hlast
    by_contra hnot
    obtain ⟨hexpiry, hnot⟩ := not_or.mp hnot
    obtain ⟨hrelease, hbreak⟩ := not_or.mp hnot
    have hholds : HoldsLive (empty.events before) step.1 lockId client lease :=
      ⟨first, event, second, hevents, hgranted, Nat.lt_of_not_le hexpiry, hlast,
        fun later hmem hreleased => hrelease ⟨later, hmem, hreleased⟩,
        fun later hmem record hbroke => hbreak ⟨later, hmem, record, hbroke⟩⟩
    obtain ⟨hstored, hholder⟩ := hholds.live (hbefore before step after hsplit)
    obtain ⟨-, -, hfree, -⟩ :=
      ((empty.run before).executeRequest_outcome step.1 step.2).granted_lease hgranted'
    exact hne (Subtype.ext (hholder.symm.trans (hfree lease hstored)))
  · intro before after hsplit other
    rw [hsplit, events_append, run_append]
    exact ⟨rfl, rfl⟩

/-- A request raises a watermark by one at most. -/
theorem Outcome.watermark_le_succ {s s' : Service} {clock : Nat} {request : Request}
    {response : Response} {history : List Event} (h : Outcome s clock request s' response)
    (hs : s.Watermarked history) (hroom : s.Unsaturated) (lockId : Nat) :
    s'.watermark lockId ≤ s.watermark lockId + 1 := by
  cases h with
  | granted client locked window lease hheld hid hholder =>
    rw [watermark_store, hid, hs.nextGeneration hroom]
    split
    · rename_i heq
      rw [heq]
      split
      · exact Nat.le_refl _
      · exact Nat.le_succ _
    · exact Nat.le_succ _
  | broke locked broken hstored =>
    rw [watermark_store]
    split
    · rename_i heq
      subst heq
      show saturatingAdd broken.leaseId 1 ≤ _
      rw [hs.stored _ _ hstored, saturatingAdd_one (hroom _)]
    · exact Nat.le_succ _
  | _ => exact Nat.le_succ _

/-- A list shorter than the range of generations never saturates one. -/
theorem roomy_of_length {steps : List (Nat × Request)} (h : steps.length ≤ maxU64) :
    empty.Roomy steps := by
  have hbound : ∀ before : List (Nat × Request), before.length ≤ maxU64 →
      (empty.run before).Watermarked (empty.events before) ∧
        ∀ lockId, (empty.run before).watermark lockId ≤ before.length := by
    intro before
    induction before using List.reverseRecOn with
    | nil =>
      exact fun _ => ⟨⟨fun _ _ h => (nomatch h), fun _ _ _ hmem => absurd hmem List.not_mem_nil⟩,
        fun _ => Nat.le_refl 0⟩
    | append_singleton before step ih =>
      intro hlen
      rw [List.length_append, List.length_singleton] at hlen
      obtain ⟨hmarks, hle⟩ := ih (by omega)
      have hroom : (empty.run before).Unsaturated := fun lockId => (hle lockId).trans_lt (by omega)
      rw [run_append, events_append, List.length_append, List.length_singleton]
      refine ⟨hmarks.step hroom step, fun lockId => ?_⟩
      exact (((empty.run before).executeRequest_outcome step.1 step.2).watermark_le_succ hmarks
        hroom lockId).trans (Nat.succ_le_succ (hle lockId))
  intro before step after hsplit lockId
  rw [hsplit, List.length_append, List.length_cons] at h
  exact ((hbound before (by omega)).2 lockId).trans_lt (by omega)

/-- Two clients take a lock in turn, the second behind the release of the first. -/
def handover : List (Nat × Request) :=
  [(1, .set ⟨⟨7, 1⟩, by decide⟩ 0 10), (2, .release ⟨⟨7, 1⟩, by decide⟩ 0 1),
    (3, .set ⟨⟨8, 1⟩, by decide⟩ 0 10)]

/-- Both are granted it, the second at a higher generation. -/
theorem fencing_handover :
    (∃ first second : Lease, (empty.events handover).map Event.response =
      [.set 0 true (some first) 1, .release 0 true none 2, .set 0 true (some second) 3] ∧
        first.leaseId < second.leaseId) ∧ Fenced handover :=
  ⟨⟨_, _, rfl, by decide⟩, fencing (by decide) (roomy_of_length (by decide))⟩

end Service

end Locks

end UvrrCore
