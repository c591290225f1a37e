import FlowRulZ.Bytecode.Plan
import FlowRulZ.Lib.Text
import FlowRulZ.Reliability.CircuitBreaker

/-! # Calling a service

`ProdNode.callService` asks the breaker of the service, looks an instance up and hands the call to
a `ServiceCaller`, which reports to the breaker how it went, on most of its paths.  What the
registry and the network answer comes from outside.
-/

namespace FlowRulZ.Node

open Reliability

/-- `registry.Protocol`, a string. -/
inductive Protocol where
  | http
  | grpc
  | tcp
  | kafka
  | other (name : String)
  deriving Repr, DecidableEq

def Protocol.name : Protocol → String
  | .http => "http"
  | .grpc => "grpc"
  | .tcp => "tcp"
  | .kafka => "kafka"
  | .other name => name

structure Endpoint where
  address : String
  port : Int
  protocol : Protocol
  deriving Repr, DecidableEq

structure ServiceInstance where
  name : String
  endpoint : Endpoint
  deriving Repr, DecidableEq

inductive HttpExchange where
  | noRequest (err : String)
  | noResponse (err : String)
  | response (statusCode : Int) (body : Except String Bytes)

/-- How the exchange of `callTCP` goes: where it fails, or what is read. -/
inductive TcpExchange where
  | noConnection (err : String)
  | noLengthWritten (err : String)
  | noBodyWritten (err : String)
  | noLengthRead (err : String)
  | response (respLen : UInt32) (body : Except String Bytes)

structure Exchange where
  http : HttpExchange
  tcp : TcpExchange

/-- The limits of a service caller, and the verb `%q` of its messages. -/
structure ServiceCaller where
  quote : String → String
  maxResponseBytes : Nat := 10 * 1024 * 1024

/-- A regular expression of one letter or digit, then up to `limit` letters, digits and others. -/
def matchName (others : List Char) (limit : Nat) (s : String) : Bool :=
  match s.toList with
  | [] => false
  | c :: rest =>
    c.isAlphanum && rest.length ≤ limit && rest.all fun c => c.isAlphanum || c ∈ others

def validServiceName : String → Bool := matchName ['.', '_', '-'] 127

def validMethodName : String → Bool := matchName ['/', '_', '-'] 255

/-- `isRetryableError`, for errors that are no sentinels; those are wrapped by every call. -/
def isRetryableError (err : String) : Bool :=
  ["connection refused", "connection reset", "broken pipe", "i/o timeout", "no such host",
    "http status 5", "tcp dial", "grpc connect"].any (Text.containsStr err)

namespace ServiceCaller

variable (sc : ServiceCaller)

def validateServiceName (name : String) : Except String Unit :=
  if validServiceName name then .ok ()
  else .error s!"invalid service name: {sc.quote name} (must be 1-128 alphanumeric/dot/dash/underscore)"

def validateMethodName (method : String) : Except String Unit :=
  if validMethodName method then .ok ()
  else .error s!"invalid method name: {sc.quote method} (must be 1-256 alphanumeric/slash/dash/underscore)"

def callHTTP : HttpExchange → Report × Except String Bytes
  | .noRequest err => (.failure, .error s!"http request: {err}")
  | .noResponse err => (.failure, .error s!"http call: {err}")
  | .response statusCode body =>
    if 500 ≤ statusCode then (.failure, .error s!"http status {statusCode}")
    else match body with
      | .error err => (.failure, .error s!"http read: {err}")
      | .ok respBody => (.success, .ok (respBody.take sc.maxResponseBytes))

/-- `callGRPC`, which reports nothing. -/
def callGRPC (inst : ServiceInstance) (method : String) : Except String Bytes := do
  let addr := s!"{inst.endpoint.address}:{inst.endpoint.port}"
  sc.validateServiceName inst.name
  sc.validateMethodName method
  .error (s!"grpc transport: not implemented for service {inst.name} method {method} at {addr}" ++
    " — configure generated proto client or use HTTP protocol")

def callTCP : TcpExchange → Report × Except String Bytes
  | .noConnection err => (.failure, .error s!"tcp dial: {err}")
  | .noLengthWritten err => (.failure, .error s!"tcp write length: {err}")
  | .noBodyWritten err => (.failure, .error s!"tcp write body: {err}")
  | .noLengthRead err => (.failure, .error s!"tcp read length: {err}")
  | .response respLen body =>
    if UInt32.ofNat sc.maxResponseBytes < respLen then
      (.failure, .error s!"tcp response too large: {respLen.toNat} bytes")
    else match body with
      | .error err => (.failure, .error s!"tcp read body: {err}")
      | .ok respBody => (.success, .ok respBody)

/-- The call that the protocol asks for; none for a protocol that is not supported. -/
def callBy (inst : ServiceInstance) (method : String) (exchange : Exchange) :
    Option (Option Report × Except String Bytes) :=
  match inst.endpoint.protocol with
  | .http => some ((sc.callHTTP exchange.http).map some id)
  | .grpc => some (none, sc.callGRPC inst method)
  | .tcp => some ((sc.callTCP exchange.tcp).map some id)
  | .kafka | .other _ => none

/-- The loop of `CallServiceWithRetry` from an attempt on, with the reports it makes. Before a retry the context may be
cancelled. -/
def retryLoop (inst : ServiceInstance) (method : String) (maxRetries : Nat) (cancelled : Nat → Option String)
    (exchange : Nat → Exchange) : Nat → Nat → String → List Report × Except String Bytes
  | 0, _, lastErr => ([], .error s!"service call failed after {maxRetries + 1} attempts: {lastErr}")
  | left + 1, attempt, _ =>
    match if 0 < attempt then cancelled attempt else none with
    | some err => ([], .error err)
    | none =>
      match sc.callBy inst method (exchange attempt) with
      | none => ([], .error s!"unsupported protocol: {inst.endpoint.protocol.name}")
      | some (report, .ok resp) => (report.toList, .ok resp)
      | some (report, .error err) =>
        if isRetryableError err then
          let (reports, result) :=
            retryLoop inst method maxRetries cancelled exchange left (attempt + 1) err
          (report.toList ++ reports, result)
        else (report.toList, .error err)

def callServiceWithRetry (inst : Option ServiceInstance) (method : String) (body : Bytes) (maxRetries : Int)
    (cancelled : Nat → Option String) (exchange : Nat → Exchange) : List Report × Except String Bytes :=
  match inst with
  | none => ([], .error "nil service instance")
  | some inst =>
    match sc.validateServiceName inst.name, sc.validateMethodName method with
    | .error err, _ => ([], .error err)
    | .ok (), .error err => ([], .error err)
    | .ok (), .ok () =>
      if 10 * 1024 * 1024 < body.length then
        ([], .error s!"request body too large: {body.length} bytes (max 10MB)")
      else
        sc.retryLoop inst method maxRetries.toNat cancelled exchange (maxRetries.toNat + 1) 0 ""

def callService (inst : Option ServiceInstance) (method : String) (body : Bytes)
    (cancelled : Nat → Option String) (exchange : Nat → Exchange) : List Report × Except String Bytes :=
  sc.callServiceWithRetry inst method body 0 cancelled exchange

end ServiceCaller

/-- What an admitted call of `callService` is made with and what it meets. -/
structure Meeting where
  method : String
  body : Bytes
  lookup : Except String (Option ServiceInstance)
  cancelled : Nat → Option String
  exchange : Nat → Exchange

/-- `ProdNode.callService` after the breaker has admitted the call: its reports and its result. -/
def admittedCall (sc : ServiceCaller) (svcName : String) (met : Meeting) : List Report × Except String Bytes :=
  match met.lookup with
  | .error err => ([.failure], .error s!"registry lookup {svcName}: {err}")
  | .ok none => ([], .ok met.body)
  | .ok (some inst) =>
    match sc.callService inst met.method met.body met.cancelled met.exchange with
    | (reports, .error err) => (reports, .error s!"service {svcName}: {err}")
    | (reports, .ok resp) => (reports, .ok resp)

variable {ι : Type} [DecidableEq ι]

/-- A call of `callService` asks the breaker, or it returns. -/
inductive ServiceEvent (ι : Type) where
  | call (now : Int) (caller : ι)
  | return (now : Int) (caller : ι) (met : Meeting)

/-- What the breaker of the service sees of it. -/
def ServiceEvent.seen (sc : ServiceCaller) (svcName : String) : ServiceEvent ι → Event ι
  | .call now caller => .allow now caller
  | .return now caller met => .done now caller (admittedCall sc svcName met).1.head?

def seenBy (sc : ServiceCaller) (events : List (String × ServiceEvent ι)) : List (String × Event ι) :=
  events.map fun e => (e.1, e.2.seen sc e.1)

/-- `circuitBreakers` before the first call: a breaker is made at the first call of its service. -/
def newBreakers : String → Traffic ι := fun _ => ⟨newCircuitBreaker 5 30000000000, []⟩

def breakersAfter (sc : ServiceCaller) (events : List (String × ServiceEvent ι)) : String → Traffic ι :=
  traffic.keyed.after newBreakers (seenBy sc events)

/-- Calls in any interleaving: one returns only after it was admitted. -/
def Interleaved (sc : ServiceCaller) (events : List (String × ServiceEvent ι)) : Prop :=
  traffic.keyed.Throughout (fun states e => Permitted (states e.1) e.2) newBreakers (seenBy sc events)

instance (sc : ServiceCaller) (events : List (String × ServiceEvent ι)) : Decidable (Interleaved sc events) :=
  inferInstanceAs (Decidable (traffic.keyed.Throughout (fun states e => Permitted (states e.1) e.2) newBreakers
    (seenBy sc events)))

/-- When no call of a service is under way, a call made more than the recovery timeout after its last failure is
admitted if fewer than three calls have returned without a report since the last report. -/
theorem admitted_after_recovery (sc : ServiceCaller) (events : List (String × ServiceEvent ι))
    (interleaved : Interleaved sc events) (svcName : String)
    (idle : (breakersAfter sc events svcName).inFlight = []) (now : Int)
    (late : ∀ e ∈ Component.own svcName (seenBy sc events), e.report = some .failure → e.time + 30000000000 < now)
    (reported : unreported (Component.own svcName (seenBy sc events)) < 3) :
    ((breakersAfter sc events svcName).breaker.allow now).2 = true := by
  have permitted := Component.keyed_throughout traffic svcName interleaved
  have own : breakersAfter sc events svcName = traffic.after (newBreakers svcName) _ :=
    (Component.keyed_run traffic svcName newBreakers (seenBy sc events)).1
  rw [own] at idle ⊢
  refine (tended_after rfl rfl permitted).admits idle ?_ reported
  intro e member failed
  have expired := late e member failed
  rw [after_recoveryTimeout, since, show (newCircuitBreaker 5 30000000000).recoveryTimeout.toInt = 30000000000 from rfl,
    show Int64.maxValue.toInt = 9223372036854775807 from rfl]
  omega

def unregistered : Meeting where
  method := "charge"
  body := []
  lookup := .error "not found"
  cancelled _ := none
  exchange _ := ⟨.noRequest "", .noConnection ""⟩

def overGrpc : Meeting :=
  { unregistered with lookup := .ok (some ⟨"payments", ⟨"10.0.0.1", 9090, .grpc⟩⟩) }

def inTurn (times : List Int) (met : Meeting) : List (String × ServiceEvent Nat) :=
  times.flatMap fun now => [("payments", .call now 0), ("payments", .return now 0 met)]

theorem admitted_after_failures :
    ((breakersAfter { quote := id } (inTurn [0, 1, 2, 3, 4] unregistered) "payments").breaker.allow
      30000000005).2 = true := by
  have failures : ∀ e ∈ Component.own "payments" (seenBy { quote := id } (inTurn [0, 1, 2, 3, 4] unregistered)),
      e.time ≤ 4 := by
    decide
  refine admitted_after_recovery { quote := id } _ (by decide) "payments" (by decide) 30000000005 ?_ (by decide)
  intro e member _
  have early := failures e member
  omega

/-- After five failed lookups the service is there again, with a protocol that reports nothing: three calls of it are
admitted and have returned, and an hour later the breaker still refuses. -/
theorem refuses_after_unreported :
    let calls := inTurn [0, 1, 2, 3, 4] unregistered ++
      inTurn [40000000000, 40000000001, 40000000002] overGrpc
    Interleaved { quote := id } calls ∧ (breakersAfter { quote := id } calls "payments").inFlight = [] ∧
      (breakersAfter { quote := id } calls "payments").breaker.lastFailureTime = 4 ∧
      ((breakersAfter { quote := id } calls "payments").breaker.allow 3600000000000).2 = false := by
  decide +kernel

end FlowRulZ.Node
