/-
# The methods a user may call

`RpcAuth.refusal` reads the decoded body on the thread of the connections, and `_answer`
reads it again on the node's.  Where the first lets a body through, the second runs no
callback but of the methods the user is allowed: of one body, whatever becomes of the node
between its steps, and of all those a server answers at once.
-/
import Mathlib.Data.Finset.Basic
import BtclibNode.Lib.Run
import BtclibNode.Rpc.Answer

namespace BtclibNode

/-! ## The whitelist -/

/-- `Refusal`.  A warning is the line's format with the user and the method it names. -/
structure Refusal where
  status : String
  body : Option Json
  warning : Option (String × Bytes × Option String)

/-- The whitelists of `RpcAuth`. -/
structure RpcAuth where
  whitelist : Bytes → Option (Finset String)
  whitelistDefault : Bool

/-- `_parse_refusal`. -/
def parseRefusal (request : Json) : Option Refusal :=
  match JsonRpcRequest.parse request JsonRpcRequest.init with
  | .error e jreq => some ⟨errorStatus e.code, some (.obj (jreq.reply (.error e))), none⟩
  | .ok _ _ => none

/-- `_batch_error`. -/
def batchError (code : ℤ) (message : String) : Refusal :=
  ⟨errorStatus code, some (.obj (JsonRpcRequest.init.reply (.error ⟨code, message⟩))), none⟩

/-- The 403 of a method that is not allowed. -/
def forbidden (user : Bytes) (method : Option String) : Refusal :=
  ⟨"403 Forbidden", none, some ("RPC User %s not allowed to call method %s", user, method)⟩

/-- `_request_refusal`. -/
def requestRefusal (user : Bytes) (allowed : Finset String) (pairs : List (String × Json)) :
    Option Refusal :=
  match parseRefusal (.obj pairs) with
  | some refusal => some refusal
  | none =>
    match getField pairs "method" with
    | .str method => if method ∈ allowed then none else some (forbidden user method)
    | _ => some (forbidden user none)

/-- `_batch_refusal`. -/
def batchRefusal (user : Bytes) (allowed : Finset String) : List Json → Option Refusal
  | [] => none
  | .obj pairs :: rest =>
    match getField pairs "method" with
    | .str method =>
      if method ∈ allowed then batchRefusal user allowed rest
      else some (forbidden user method)
    | method => some (batchError RPCErrorCode.parseError
        ("JSON value of type " ++ method.typeName ++ " is not of expected type string"))
  | _ :: _ => some (batchError RPCErrorCode.invalidRequest "Invalid Request object")

/-- `RpcAuth.refusal`. -/
def RpcAuth.refusal (auth : RpcAuth) (user : Bytes) (request : Json) : Option Refusal :=
  match auth.whitelist user with
  | none =>
    if auth.whitelistDefault then
      some ⟨"403 Forbidden", none, some ("RPC User %s not allowed to call any methods", user, none)⟩
    else none
  | some allowed =>
    match request with
    | .obj pairs => requestRefusal user allowed pairs
    | .arr batch => batchRefusal user allowed batch
    | _ => none

/-- The user may call the method. -/
def RpcAuth.Permits (auth : RpcAuth) (user : Bytes) (method : String) : Prop :=
  match auth.whitelist user with
  | some allowed => method ∈ allowed
  | none => auth.whitelistDefault = false

section Refusal

variable {auth : RpcAuth} {user : Bytes} {allowed : Finset String} {body : Json}

theorem names_of_requestRefusal {pairs : List (String × Json)}
    (h : requestRefusal user allowed pairs = none) : (Json.obj pairs).Names (· ∈ allowed) := by
  intro method hmethod
  unfold requestRefusal at h
  split at h
  · cases h
  · unfold Json.method? at hmethod
    dsimp only at hmethod
    split at hmethod
    · next name hname =>
      cases hmethod
      rw [hname] at h
      by_contra hm
      simp [hm] at h
    · cases hmethod

theorem names_of_batchRefusal {members : List Json}
    (h : batchRefusal user allowed members = none) : (Json.arr members).Names (· ∈ allowed) := by
  induction members with
  | nil =>
    intro member hmember
    cases hmember
  | cons first rest ih =>
    -- the first entry is an object whose method is allowed, and the rest was read on
    have hfirst : (∀ method, first.method? = some method → method ∈ allowed) ∧
        batchRefusal user allowed rest = none := by
      unfold batchRefusal at h
      split at h
      · next heq => cases heq
      · next pairs others heq =>
        cases heq
        split at h
        · next method hmethod =>
          split at h
          · next hm =>
            refine ⟨fun name hname => ?_, h⟩
            simp only [Json.method?, hmethod, Option.some.injEq] at hname
            exact hname ▸ hm
          · cases h
        · cases h
      · cases h
    intro member hmember
    rcases List.mem_cons.mp hmember with rfl | hmember
    · exact hfirst.1
    · exact ih hfirst.2 member hmember

/-- **A body that is not refused names no method but those the user may call.** -/
theorem names_of_refusal (h : auth.refusal user body = none) :
    body.Names (auth.Permits user) := by
  unfold RpcAuth.refusal at h
  unfold RpcAuth.Permits
  cases hw : auth.whitelist user with
  | none =>
    rw [hw] at h
    have hdefault : auth.whitelistDefault = false := by
      by_contra hc
      rw [Bool.not_eq_false] at hc
      simp [hc] at h
    cases body with
    | obj pairs => exact fun _ _ => hdefault
    | arr members => exact fun _ _ _ _ => hdefault
    | null | bool | int | float | str => trivial
  | some allowed =>
    rw [hw] at h
    cases body with
    | obj pairs => exact names_of_requestRefusal h
    | arr members => exact names_of_batchRefusal h
    | null | bool | int | float | str => trivial

end Refusal

/-! ## One body -/

/-- The methods whose callbacks the steps of a job run, the node of every step being whatever
it has become by then. -/
def Job.ranOver {σ γ : Type} (table : RpcTable σ γ) (conn : ℕ) :
    Job γ → List (RpcNode σ) → List String
  | _, [] => []
  | job, node :: nodes =>
    match nextStep table conn node job with
    | (_, ran, .yielded _ job) => ran ++ ranOver table conn job nodes
    | (_, ran, _) => ran

theorem Job.Only.ranOver {σ γ : Type} {table : RpcTable σ γ} {conn : ℕ} {allowed : String → Prop}
    {job : Job γ} (hjob : job.Only allowed) (nodes : List (RpcNode σ)) :
    ∀ method ∈ Job.ranOver table conn job nodes, allowed method := by
  induction nodes generalizing job with
  | nil =>
    intro method hm
    cases hm
  | cons node nodes ih =>
    obtain ⟨hran, hnext⟩ := allows_nextStep table conn hjob node
    intro method hm
    unfold Job.ranOver at hm
    split at hm
    · next after ran worked job' heq =>
      rw [heq] at hran hnext
      rcases List.mem_append.mp hm with hm | hm
      · exact hran method hm
      · exact ih (hnext worked job' rfl) method hm
    · next after ran progress hno heq =>
      rw [heq] at hran
      exact hran method hm

/-! ## The server -/

/-- A body `RpcConnection.run` has queued, with the user it was sent by. -/
structure QueuedBody where
  body : Json
  conn : ℕ
  user : Bytes

/-- The requests of the node: those queued, those that wait, and the replies.  `ran` is kept
for the statements: every callback run, with the user whose body it was run for. -/
structure RpcServer (σ γ : Type) where
  node : RpcNode σ
  connections : List ℕ
  messages : List QueuedBody
  pendingRpc : List (ℕ × Bytes × Job γ)
  sent : List (ℕ × HttpReply)
  ran : List (Bytes × String)

/-- What happens to the server: a body comes from an authenticated user, the node's loop calls
`handle_rpc` or `resume_rpc`, and everything else changes the node and the connections. -/
inductive RpcEvent (σ : Type) where
  | receive (conn : ℕ) (user : Bytes) (body : Json)
  | handleRpc
  | resumeRpc
  | elsewhere (node : RpcNode σ) (connections : List ℕ)

namespace RpcServer

variable {σ γ : Type}

/-- A server that has had no request. -/
def init (node : RpcNode σ) (connections : List ℕ) : RpcServer σ γ :=
  ⟨node, connections, [], [], [], []⟩

/-- `_step` of a job taken off its queue, which goes to `pending_rpc` where it waits: the server,
and whether the job ended in an exception. -/
def stepJob (table : RpcTable σ γ) (w : RpcServer σ γ) (conn : ℕ) (user : Bytes) (job : Job γ) :
    RpcServer σ γ × Bool :=
  let (node, ran, progress) := nextStep table conn w.node job
  let t := { w with node, ran := w.ran ++ ran.map (user, ·) }
  match progress with
  | .yielded _ job => ({ t with pendingRpc := t.pendingRpc ++ [(conn, user, job)] }, false)
  | .done reply stop _ =>
    ({ t with
      sent := t.sent ++ [(conn, reply)]
      node := { t.node with terminateFlag := t.node.terminateFlag || stop } }, false)
  | .raised _ => (t, true)

/-- `RpcConnection.run` from a decoded body on. -/
def receive (table : RpcTable σ γ) (auth : RpcAuth) (w : RpcServer σ γ) (conn : ℕ) (user : Bytes)
    (body : Json) : RpcServer σ γ :=
  match auth.refusal user body with
  | some refusal => { w with sent := w.sent ++ [(conn, ⟨refusal.status, refusal.body⟩)] }
  | none =>
    if w.node.inWarmup then (w.stepJob table conn user (.start body)).1
    else { w with messages := w.messages ++ [⟨body, conn, user⟩] }

/-- `handle_rpc`, of a server with a request queued. -/
def handleRpc (table : RpcTable σ γ) (w : RpcServer σ γ) : Option (RpcServer σ γ) :=
  match w.messages with
  | [] => none
  | ⟨body, conn, user⟩ :: messages =>
    let t := { w with messages }
    if conn ∈ w.connections then some (t.stepJob table conn user (.start body)).1 else some t

/-- The loop of `resume_rpc`, which an exception ends. -/
def resumeFrom (table : RpcTable σ γ) : ℕ → RpcServer σ γ → RpcServer σ γ
  | 0, w => w
  | n + 1, w =>
    match w.pendingRpc with
    | [] => w
    | (conn, user, job) :: pendingRpc =>
      match { w with pendingRpc }.stepJob table conn user job with
      | (t, true) => t
      | (t, false) => resumeFrom table n t

/-- What an event makes of the server. -/
def step (table : RpcTable σ γ) (auth : RpcAuth) (w : RpcServer σ γ) :
    RpcEvent σ → Option (RpcServer σ γ)
  | .receive conn user body => some (w.receive table auth conn user body)
  | .handleRpc => w.handleRpc table
  | .resumeRpc => some (resumeFrom table w.pendingRpc.length w)
  | .elsewhere node connections => some { w with node, connections }

/-- Nothing has run, and nothing may yet, that its user may not call. -/
structure Permitted (auth : RpcAuth) (w : RpcServer σ γ) : Prop where
  ran : ∀ user method, (user, method) ∈ w.ran → auth.Permits user method
  messages : ∀ queued ∈ w.messages, queued.body.Names (auth.Permits queued.user)
  pending : ∀ conn user job, (conn, user, job) ∈ w.pendingRpc → job.Only (auth.Permits user)

section Permitted

variable {table : RpcTable σ γ} {auth : RpcAuth} {w w' : RpcServer σ γ} {conn : ℕ} {user : Bytes}
  {job : Job γ}

theorem Permitted.stepJob (hw : w.Permitted auth) (hjob : job.Only (auth.Permits user)) :
    (w.stepJob table conn user job).1.Permitted auth := by
  obtain ⟨hran, hnext⟩ := allows_nextStep table conn hjob w.node
  have hrun : ∀ other method, (other, method) ∈
      w.ran ++ (nextStep table conn w.node job).2.1.map (user, ·) →
        auth.Permits other method := by
    intro other method hm
    rcases List.mem_append.mp hm with hm | hm
    · exact hw.ran other method hm
    · obtain ⟨name, hname, heq⟩ := List.mem_map.mp hm
      cases heq
      exact hran _ hname
  unfold RpcServer.stepJob
  dsimp only
  split
  · next worked job' hprogress =>
    refine ⟨hrun, hw.messages, fun other otherUser otherJob hm => ?_⟩
    rcases List.mem_append.mp hm with hm | hm
    · exact hw.pending other otherUser otherJob hm
    · cases List.mem_singleton.mp hm
      exact hnext worked job' hprogress
  · exact ⟨hrun, hw.messages, hw.pending⟩
  · exact ⟨hrun, hw.messages, hw.pending⟩

theorem Permitted.receive (hw : w.Permitted auth) (body : Json) :
    (w.receive table auth conn user body).Permitted auth := by
  unfold RpcServer.receive
  split
  · exact ⟨hw.ran, hw.messages, hw.pending⟩
  · next hrefusal =>
    split
    · exact hw.stepJob (names_of_refusal hrefusal)
    · refine ⟨hw.ran, fun queued hq => ?_, hw.pending⟩
      rcases List.mem_append.mp hq with hq | hq
      · exact hw.messages queued hq
      · cases List.mem_singleton.mp hq
        exact names_of_refusal hrefusal

theorem Permitted.handleRpc (hw : w.Permitted auth) (hstep : w.handleRpc table = some w') :
    w'.Permitted auth := by
  unfold RpcServer.handleRpc at hstep
  split at hstep
  · cases hstep
  · next body conn user messages hmessages =>
    have hbody : body.Names (auth.Permits user) :=
      hw.messages ⟨body, conn, user⟩ (hmessages ▸ List.mem_cons_self)
    have hrest : Permitted auth { w with messages } :=
      ⟨hw.ran, fun queued hq => hw.messages queued (hmessages ▸ List.mem_cons_of_mem _ hq),
        hw.pending⟩
    dsimp only at hstep
    split at hstep
    · cases hstep
      exact hrest.stepJob hbody
    · cases hstep
      exact hrest

theorem Permitted.resumeFrom (hw : w.Permitted auth) (n : ℕ) :
    (RpcServer.resumeFrom table n w).Permitted auth := by
  induction n generalizing w with
  | zero => exact hw
  | succ n ih =>
    unfold RpcServer.resumeFrom
    split
    · exact hw
    · next conn user job pendingRpc hpending =>
      have hjob : job.Only (auth.Permits user) :=
        hw.pending conn user job (hpending ▸ List.mem_cons_self)
      have hrest : Permitted auth { w with pendingRpc } :=
        ⟨hw.ran, hw.messages, fun other otherUser otherJob hm =>
          hw.pending other otherUser otherJob (hpending ▸ List.mem_cons_of_mem _ hm)⟩
      have hstep : (RpcServer.stepJob table { w with pendingRpc } conn user job).1.Permitted auth :=
        hrest.stepJob hjob
      split
      · next t heq =>
        rw [heq] at hstep
        exact hstep
      · next t heq =>
        rw [heq] at hstep
        exact ih hstep

/-- **No event runs what its user may not call.** -/
theorem Permitted.step {event : RpcEvent σ} (hw : w.Permitted auth)
    (hstep : w.step table auth event = some w') : w'.Permitted auth := by
  cases event with
  | receive conn user body =>
    cases hstep
    exact hw.receive body
  | handleRpc => exact hw.handleRpc hstep
  | resumeRpc =>
    cases hstep
    exact hw.resumeFrom _
  | elsewhere node connections =>
    cases hstep
    exact ⟨hw.ran, hw.messages, hw.pending⟩

end Permitted

end RpcServer

/-- **A user runs only the methods it may call.**  Where `refusal` lets a body of a whitelisted
user through, every callback `_answer` runs for it, at its first step or a later one, is of a
method of its whitelist; and in a run of the server no callback is run for a user without one
where `-rpcwhitelistdefault` holds, nor for any user one it may not call. -/
theorem callbacks_permitted {σ γ : Type} (table : RpcTable σ γ) (auth : RpcAuth) :
    (∀ user body allowed, auth.whitelist user = some allowed → auth.refusal user body = none →
      ∀ conn nodes, ∀ method ∈ Job.ranOver table conn (.start body) nodes, method ∈ allowed) ∧
    ∀ node connections events w,
      Run.exec (RpcServer.step table auth) (RpcServer.init node connections) events = some w →
      (∀ user allowed, auth.whitelist user = some allowed →
        ∀ method, (user, method) ∈ w.ran → method ∈ allowed) ∧
      ∀ user, auth.whitelist user = none → auth.whitelistDefault = true →
        ∀ method, (user, method) ∉ w.ran := by
  have hpermits : ∀ user allowed, auth.whitelist user = some allowed →
      ∀ method, auth.Permits user method → method ∈ allowed := by
    intro user allowed hw method hm
    unfold RpcAuth.Permits at hm
    rwa [hw] at hm
  constructor
  · intro user body allowed hw hrefusal conn nodes method hm
    have hjob : (Job.start body : Job γ).Only (auth.Permits user) := names_of_refusal hrefusal
    exact hpermits user allowed hw method (hjob.ranOver nodes method hm)
  · intro node connections events w hrun
    have hinit : (RpcServer.init node connections : RpcServer σ γ).Permitted auth := by
      constructor <;> simp [RpcServer.init]
    have hperm : w.Permitted auth := Run.exec_invariant (P := RpcServer.Permitted auth)
      (fun _ _ _ hr hstep => hr.step hstep) hinit hrun
    refine ⟨fun user allowed hw method hm => ?_, fun user hw hdefault method hm => ?_⟩
    · exact hpermits user allowed hw method (hperm.ran user method hm)
    · have hpermit := hperm.ran user method hm
      unfold RpcAuth.Permits at hpermit
      simp [hw, hdefault] at hpermit

/-! ## A waiting method, and a body that names two -/

/-- A node with a method that waits once, and `stop`. -/
def waitingTable : RpcTable Unit Unit where
  callbacks method :=
    if method = "waitfornewblock" then
      some ⟨fun node _ _ => (node, .generator ()), ["timeout"], [], "waitfornewblock ( timeout )"⟩
    else if method = "stop" then
      some ⟨fun node _ _ => (node, .ended (.returned (.str "stopping"))), ["wait"], [], "stop"⟩
    else none
  next _ node := (node, if node.terminateFlag then .ended (.returned .null) else .yielded false ())
  stopWaitParam _ := .ok none

/-- The user named 1 may wait and nothing else; who is not named may do nothing. -/
def waitingAuth : RpcAuth where
  whitelist user := if user = [1] then some {"waitfornewblock"} else none
  whitelistDefault := true

/-- A request that names the allowed method, and then `stop`. -/
def doubledRequest : Json :=
  .obj [("id", .int 7), ("method", .str "waitfornewblock"), ("method", .str "stop")]

def waitingEvents : List (RpcEvent Unit) :=
  [.receive 0 [1] doubledRequest, .receive 0 [2] doubledRequest, .handleRpc, .resumeRpc]

def idleNode (terminateFlag : Bool) : RpcNode Unit := ⟨false, "", [], terminateFlag, 0, ()⟩

theorem callbacks_permitted_doubledRequest :
    Job.ranOver waitingTable 0 (.start doubledRequest) [idleNode false, idleNode true] =
        ["waitfornewblock", "waitfornewblock"] ∧
      (∀ method ∈ Job.ranOver waitingTable 0 (.start doubledRequest) [idleNode false, idleNode true],
        method ∈ ({"waitfornewblock"} : Finset String)) ∧
      ∃ w, Run.exec (RpcServer.step waitingTable waitingAuth) (RpcServer.init (idleNode false) [0])
          waitingEvents = some w ∧
        ∀ method, ([2], method) ∉ w.ran := by
  have hperm := callbacks_permitted waitingTable waitingAuth
  refine ⟨by decide +kernel, ?_, ?_⟩
  · exact hperm.1 [1] doubledRequest {"waitfornewblock"} rfl rfl 0 [idleNode false, idleNode true]
  · obtain ⟨w, hrun⟩ : ∃ w, Run.exec (RpcServer.step waitingTable waitingAuth)
        (RpcServer.init (idleNode false) [0]) waitingEvents = some w := ⟨_, rfl⟩
    exact ⟨w, hrun, (hperm.2 (idleNode false) [0] waitingEvents w hrun).2 [2] rfl rfl⟩

end BtclibNode
