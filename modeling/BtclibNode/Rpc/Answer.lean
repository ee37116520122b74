/-
# Answering a request

`_answer` is a generator: a method that waits holds its request where it stands until the
next step.  So a request being answered is a job, and a step of it runs callbacks of the
node until one waits or the body is answered.  What a job may still run is read off it.
-/
import Mathlib
import BtclibNode.Rpc.JsonRpc

namespace BtclibNode

open StateExcept

/-! ## Callbacks -/

/-- What of the node `_execute` reads, with the rest of it. -/
structure RpcNode (σ : Type) where
  inWarmup : Bool
  warmupStatus : String
  activeRpcCommands : List (String × ℤ)
  terminateFlag : Bool
  monotonic : ℤ
  rest : σ

/-- How a callback or its generator ends. -/
inductive Ended where
  | returned (result : Json)
  | rpcError (e : RpcError)
  | exception

/-- What a callback answers: a generator where its method waits. -/
inductive Called (γ : Type) where
  | generator (gen : γ)
  | ended (e : Ended)

/-- What a step of a generator answers. -/
inductive Stepped (γ : Type) where
  | yielded (worked : Bool) (gen : γ)
  | ended (e : Ended)

/-- A method of `rpc.callbacks`, with its entries of `arg_names`, `named_only` and
`HELP_TEXT`. -/
structure Command (σ γ : Type) where
  callback : RpcNode σ → ℕ → List Json → RpcNode σ × Called γ
  argNames : List String
  namedOnly : List String
  helpText : String

/-- The methods of the node, how a generator of one is resumed, and how `stop` reads its
`wait`. -/
structure RpcTable (σ γ : Type) where
  callbacks : String → Option (Command σ γ)
  next : γ → RpcNode σ → RpcNode σ × Stepped γ
  stopWaitParam : List Json → Except RpcError (Option ℤ)

/-! ## One request -/

/-- What a request has come to: an answer, or a generator that waits. -/
inductive Execution (γ : Type) where
  | finished (result : Except RpcError Json)
  | waiting (worked : Bool) (gen : γ)

/-- The answer of a callback that has ended. -/
def Ended.result : Ended → Except RpcError Json
  | .returned result => .ok result
  | .rpcError e => .error e
  | .exception => .error ⟨RPCErrorCode.internalError, "Internal Error"⟩

section Execute

variable {σ γ : Type}

/-- `node.active_rpc_commands.remove(command)`. -/
def RpcNode.removeCommand (node : RpcNode σ) (command : String × ℤ) : RpcNode σ :=
  { node with activeRpcCommands := node.activeRpcCommands.erase command }

/-- What `_execute` makes of a step of the generator it runs to its end. -/
def settle (command : String × ℤ) : RpcNode σ × Stepped γ → RpcNode σ × Execution γ
  | (node, .yielded worked gen) => (node, .waiting worked gen)
  | (node, .ended e) => (node.removeCommand command, .finished e.result)

/-- The command `_execute` appends to the active ones. -/
def commandOf (node : RpcNode σ) (request : JsonRpcRequest) : String × ℤ :=
  (request.method, node.monotonic)

/-- The arguments of a request by position. -/
def positionalParams (command : Command σ γ) : RpcParams → Except RpcError (List Json)
  | .list values => .ok values
  | .dict pairs => transformNamedArguments pairs command.argNames command.namedOnly

variable (table : RpcTable σ γ) (conn : ℕ)

/-- `_execute` to its first wait or its end, with the methods whose callbacks it has run. -/
def execute (node : RpcNode σ) (request : JsonRpcRequest) :
    RpcNode σ × List String × Execution γ :=
  if node.inWarmup then
    (node, [], .finished (.error ⟨RPCErrorCode.inWarmup, node.warmupStatus⟩))
  else
    match table.callbacks request.method with
    | none => (node, [], .finished (.error ⟨RPCErrorCode.methodNotFound, "Method not found"⟩))
    | some command =>
      let entry := commandOf node request
      let active := { node with activeRpcCommands := node.activeRpcCommands ++ [entry] }
      match positionalParams command request.params with
      | .error e => (active.removeCommand entry, [], .finished (.error e))
      | .ok params =>
        if command.argNames.length < params.length then
          (active.removeCommand entry, [],
            .finished (.error ⟨RPCErrorCode.miscError, command.helpText⟩))
        else
          let (after, execution) := settle entry <|
            match command.callback active conn params with
            | (called, .generator gen) => table.next gen called
            | (called, .ended e) => (called, .ended e)
          (after, [request.method], execution)

/-- `_stop_delay_seconds`, in milliseconds. -/
def stopDelay (params : RpcParams) : Except RpcError ℕ := do
  let positional ← match params with
    | .list values => pure values
    | .dict pairs =>
      transformNamedArguments pairs ((table.callbacks "stop").elim [] Command.argNames) []
  return (← table.stopWaitParam positional).elim 0 Int.toNat

/-! ## Jobs -/

/-- Where a batch stands between two members. -/
structure Batch where
  body : List Json
  rest : List Json
  replies : List Json
  stop : Bool
  delay : ℕ

/-- A request body being answered: not begun, or at a callback that waits, the command it was
entered as beside it. -/
inductive Job (γ : Type) where
  | start (body : Json)
  | one (request : JsonRpcRequest) (command : String × ℤ) (gen : γ)
  | batch (request : JsonRpcRequest) (command : String × ℤ) (gen : γ) (batch : Batch)

/-- What a step of a job comes to. -/
inductive JobProgress (γ : Type) where
  | yielded (worked : Bool) (job : Job γ)
  | done (reply : HttpReply) (stop : Bool) (delay : ℕ)
  | raised (e : RpcError)

/-- Whether the reply is one of a `stop` that was not refused. -/
def stops (request : JsonRpcRequest) (reply : List (String × Json)) : Bool :=
  request.method = "stop" &&
    match getField reply "error" with
    | .null => true
    | _ => false

/-- `_answer_one` of a request that has been answered. -/
def finishOne (request : JsonRpcRequest) (result : Except RpcError Json) : JobProgress γ :=
  match request.v2, result with
  | false, .error e =>
    .done ⟨errorStatus e.code, some (.obj (request.reply (.error e)))⟩ false 0
  | _, _ =>
    let reply := request.reply result
    let stop := stops request reply
    match if stop then stopDelay table request.params else .ok 0 with
    | .error e => .raised e
    | .ok delay =>
      if request.isNotification then .done ⟨"204 No Content", none⟩ stop delay
      else .done ⟨"200 OK", some (.obj reply)⟩ stop delay

/-- A member's response, left out where the request is a notification. -/
def Batch.respond (batch : Batch) (request : JsonRpcRequest) (reply : List (String × Json)) :
    Batch :=
  { batch with
    replies := if request.isNotification then batch.replies else batch.replies ++ [.obj reply] }

/-- `_answer_batch` of a member that has been answered. -/
def finishMember (request : JsonRpcRequest) (result : Except RpcError Json) (batch : Batch)
    (node : RpcNode σ) : Except RpcError (RpcNode σ × Batch) :=
  let reply := request.reply result
  if !batch.stop && stops request reply then do
    let delay ← stopDelay table request.params
    return ({ node with terminateFlag := true },
      { batch with stop := true, delay }.respond request reply)
  else return (node, batch.respond request reply)

/-- The answer of a batch with no member left. -/
def Batch.answer (batch : Batch) : JobProgress γ :=
  if batch.body ≠ [] ∧ batch.replies = [] then
    .done ⟨"204 No Content", none⟩ batch.stop batch.delay
  else .done ⟨"200 OK", some (.arr batch.replies)⟩ batch.stop batch.delay

/-- The loop of `_answer_batch` over the members, every one parsed into one request. -/
def answerMembers : List Json → JsonRpcRequest → Batch → RpcNode σ →
    RpcNode σ × List String × JobProgress γ
  | [], _, batch, node => (node, [], batch.answer)
  | member :: rest, request, batch, node =>
    match JsonRpcRequest.parse member request with
    | .error e request =>
      answerMembers rest request (batch.respond request (request.reply (.error e))) node
    | .ok _ request =>
      match execute table conn node request with
      | (after, ran, .waiting worked gen) =>
        (after, ran,
          .yielded worked (.batch request (commandOf node request) gen { batch with rest }))
      | (after, ran, .finished result) =>
        match finishMember table request result batch after with
        | .error e => (after, ran, .raised e)
        | .ok (after, batch) =>
          let (last, ran', progress) := answerMembers rest request batch after
          (last, ran ++ ran', progress)

/-- A step of `_answer`, with the methods whose callbacks, or generators of whose callbacks,
it has run. -/
def nextStep (node : RpcNode σ) : Job γ → RpcNode σ × List String × JobProgress γ
  | .start (.obj pairs) =>
    match JsonRpcRequest.parse (.obj pairs) JsonRpcRequest.init with
    | .error e request =>
      (node, [], .done ⟨errorStatus e.code, some (.obj (request.reply (.error e)))⟩ false 0)
    | .ok _ request =>
      match execute table conn node request with
      | (after, ran, .waiting worked gen) =>
        (after, ran, .yielded worked (.one request (commandOf node request) gen))
      | (after, ran, .finished result) => (after, ran, finishOne table request result)
  | .start (.arr members) =>
    answerMembers table conn members JsonRpcRequest.init ⟨members, [], [], false, 0⟩ node
  | .start _ =>
    (node, [], .done (errorReply RPCErrorCode.parseError "Top-level object parse error") false 0)
  | .one request command gen =>
    match settle command (table.next gen node) with
    | (after, .waiting worked gen) => (after, [command.1], .yielded worked (.one request command gen))
    | (after, .finished result) => (after, [command.1], finishOne table request result)
  | .batch request command gen batch =>
    match settle command (table.next gen node) with
    | (after, .waiting worked gen) =>
      (after, [command.1], .yielded worked (.batch request command gen batch))
    | (after, .finished result) =>
      match finishMember table request result batch after with
      | .error e => (after, [command.1], .raised e)
      | .ok (after, batch) =>
        let (last, ran, progress) := answerMembers table conn batch.rest request batch after
        (last, command.1 :: ran, progress)

end Execute

/-! ## What a job may run -/

/-- Every method the body names is allowed. -/
def Json.Names (allowed : String → Prop) : Json → Prop
  | .obj pairs => ∀ method, (Json.obj pairs).method? = some method → allowed method
  | .arr members => ∀ member ∈ members, ∀ method, member.method? = some method → allowed method
  | _ => True

/-- Every method the job may still run is allowed: that of the callback it waits for, and
those its body, or what is left of it, names. -/
def Job.Only {γ : Type} (allowed : String → Prop) : Job γ → Prop
  | .start body => body.Names allowed
  | .one _ command _ => allowed command.1
  | .batch _ command _ state => allowed command.1 ∧ (Json.arr state.rest).Names allowed

/-- What a step has run is allowed, and what the job may still run. -/
def Allows {σ γ : Type} (allowed : String → Prop) (step : RpcNode σ × List String × JobProgress γ) :
    Prop :=
  (∀ method ∈ step.2.1, allowed method) ∧
    ∀ worked job, step.2.2 = .yielded worked job → job.Only allowed

section Allows

variable {σ γ : Type} {table : RpcTable σ γ} {conn : ℕ} {allowed : String → Prop}

/-- `_execute` runs the callback of its request's method, or none. -/
theorem execute_ran (table : RpcTable σ γ) (conn : ℕ) (node : RpcNode σ)
    (request : JsonRpcRequest) :
    ∀ method ∈ (execute table conn node request).2.1, method = request.method := by
  unfold execute
  split
  · simp
  · split
    · simp
    · dsimp only
      split
      · simp
      · split <;> simp

theorem finishOne_ne_yielded (request : JsonRpcRequest) (result : Except RpcError Json)
    (worked : Bool) (job : Job γ) : finishOne table request result ≠ .yielded worked job := by
  unfold finishOne
  split
  · simp
  · dsimp only
    split
    · simp
    · split <;> simp

theorem answer_ne_yielded (batch : Batch) (worked : Bool) (job : Job γ) :
    (batch.answer : JobProgress γ) ≠ .yielded worked job := by
  unfold Batch.answer
  split <;> simp

/-- A member that has been answered leaves the rest of the batch as it is. -/
theorem finishMember_rest {request : JsonRpcRequest} {result : Except RpcError Json}
    {batch batch' : Batch} {node node' : RpcNode σ}
    (h : finishMember table request result batch node = .ok (node', batch')) :
    batch'.rest = batch.rest := by
  unfold finishMember at h
  dsimp only at h
  split at h
  · cases hdelay : stopDelay table request.params with
    | error e =>
      rw [hdelay] at h
      cases h
    | ok delay =>
      rw [hdelay] at h
      cases h
      rfl
  · cases h
    rfl

/-- **The members of a batch run what they name**, whatever the request held before. -/
theorem allows_answerMembers (table : RpcTable σ γ) (conn : ℕ) {members : List Json}
    (hmembers : (Json.arr members).Names allowed) (request : JsonRpcRequest) (batch : Batch)
    (node : RpcNode σ) :
    Allows allowed (answerMembers table conn members request batch node) := by
  induction members generalizing request batch node with
  | nil =>
    refine ⟨by simp [answerMembers], fun worked job h => ?_⟩
    exact absurd h (answer_ne_yielded batch worked job)
  | cons member rest ih =>
    have hrest : (Json.arr rest).Names allowed := fun m hm => hmembers m (List.mem_cons_of_mem _ hm)
    have hparse := JsonRpcRequest.parse_sat request member
    unfold answerMembers
    split
    · exact ih hrest _ _ node
    · next request' hok =>
      -- only a member that parsed is run, and then under its own method
      have hallowed : allowed request'.method :=
        hmembers member List.mem_cons_self _ (hparse.of_ok hok)
      have hran := execute_ran table conn node request'
      split
      · next after ran worked gen hexec =>
        rw [hexec] at hran
        refine ⟨fun method hm => ?_, fun worked' job h => ?_⟩
        · rw [hran method hm]
          exact hallowed
        · cases h
          exact ⟨hallowed, hrest⟩
      · next after ran result hexec =>
        rw [hexec] at hran
        have hone : ∀ method ∈ ran, allowed method := by
          intro method hm
          rw [hran method hm]
          exact hallowed
        split
        · exact ⟨hone, by simp⟩
        · next after' batch' hfin =>
          obtain ⟨hran', hjob⟩ := ih hrest request' batch' after'
          refine ⟨fun method hm => ?_, hjob⟩
          rcases List.mem_append.mp hm with hm | hm
          · exact hone method hm
          · exact hran' method hm

/-- **A step runs what the job may run**, and leaves a job that may run no more. -/
theorem allows_nextStep (table : RpcTable σ γ) (conn : ℕ) {job : Job γ}
    (hjob : job.Only allowed) (node : RpcNode σ) :
    Allows allowed (nextStep table conn node job) := by
  cases job with
  | start body =>
    cases body with
    | obj pairs =>
      have hparse := JsonRpcRequest.parse_sat JsonRpcRequest.init (.obj pairs)
      rw [nextStep]
      split
      · exact ⟨by simp, by simp⟩
      · next request hok =>
        have hallowed : allowed request.method := hjob _ (hparse.of_ok hok)
        have hran := execute_ran table conn node request
        split
        · next after ran worked gen hexec =>
          rw [hexec] at hran
          refine ⟨fun method hm => ?_, fun worked' job h => ?_⟩
          · rw [hran method hm]
            exact hallowed
          · cases h
            exact hallowed
        · next after ran result hexec =>
          rw [hexec] at hran
          refine ⟨fun method hm => ?_, fun worked' job h => ?_⟩
          · rw [hran method hm]
            exact hallowed
          · exact absurd h (finishOne_ne_yielded request result worked' job)
    | arr members => exact allows_answerMembers table conn hjob _ _ node
    | null | bool | int | float | str => exact ⟨by simp [nextStep], by simp [nextStep]⟩
  | one request command gen =>
    have hallowed : allowed command.1 := hjob
    rw [nextStep]
    split
    · refine ⟨by simpa using hallowed, fun worked' job h => ?_⟩
      cases h
      exact hallowed
    · next after result hsettle =>
      refine ⟨by simpa using hallowed, fun worked' job h => ?_⟩
      exact absurd h (finishOne_ne_yielded request result worked' job)
  | batch request command gen batch =>
    obtain ⟨hallowed, hrest⟩ := hjob
    rw [nextStep]
    split
    · refine ⟨by simpa using hallowed, fun worked' job h => ?_⟩
      cases h
      exact ⟨hallowed, hrest⟩
    · split
      · exact ⟨by simpa using hallowed, by simp⟩
      · next after' batch' hfin =>
        rw [← finishMember_rest hfin] at hrest
        obtain ⟨hran, hnext⟩ := allows_answerMembers table conn hrest request batch' after'
        refine ⟨fun method hm => ?_, hnext⟩
        rcases List.mem_cons.mp hm with rfl | hm
        · exact hallowed
        · exact hran method hm

end Allows

/-! ## Warmup -/

section Warmup

variable {σ γ : Type} {table : RpcTable σ γ} {conn : ℕ} {node : RpcNode σ}

theorem execute_of_warmup (hwarmup : node.inWarmup = true) (request : JsonRpcRequest) :
    execute table conn node request =
      (node, [], .finished (.error ⟨RPCErrorCode.inWarmup, node.warmupStatus⟩)) := by
  unfold execute
  rw [if_pos hwarmup]

/-- An error is not the answer of a `stop`. -/
theorem stops_error (request : JsonRpcRequest) (e : RpcError) :
    stops request (request.reply (.error e)) = false := by
  unfold stops JsonRpcRequest.reply getField
  cases request.v2 <;> simp [List.lookup]

theorem answerMembers_of_warmup (table : RpcTable σ γ) (conn : ℕ)
    (hwarmup : node.inWarmup = true) (members : List Json) (request : JsonRpcRequest)
    (batch : Batch) :
    ∃ replies, answerMembers table conn members request batch node =
      (node, [], { batch with replies }.answer) := by
  induction members generalizing request batch with
  | nil => exact ⟨batch.replies, rfl⟩
  | cons member rest ih =>
    unfold answerMembers
    split
    · exact ih _ _
    · next request' hok =>
      rw [execute_of_warmup hwarmup]
      simp only [finishMember, stops_error, Bool.and_false, Bool.false_eq_true, if_false]
      obtain ⟨replies, heq⟩ := ih request' (batch.respond request' (request'.reply
        (.error ⟨RPCErrorCode.inWarmup, node.warmupStatus⟩)))
      refine ⟨replies, ?_⟩
      dsimp only [pure, Except.pure]
      rw [heq]
      rfl

end Warmup

/-- A node that is starting. -/
def warmingNode : RpcNode Unit := ⟨true, "Starting network threads…", [], false, 0, ()⟩

/-- No method at all. -/
def emptyTable : RpcTable Unit Empty := ⟨fun _ => none, fun gen _ => gen.elim, fun _ => .ok none⟩

end BtclibNode
