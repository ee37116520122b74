/-
# A `getdata` over every pause

A call serves the transactions in front and then one other item, and reads
`pause_send` before each.  Where no call finds it set with a transaction in front and
clear at the next read, every item is served in turn; where one does, that
transaction is popped and never answered.
-/
import BtclibNode.P2p.Getdata

namespace BtclibNode.Getdata

variable {B : Type} {env : Env B} {w : World B} {item : Inventory}
  {c d : Conn B} {p q r : Conn B × List Inventory}
  {items rest xs ys notFound notFound' : List Inventory} {n : ℕ}

/-! ## The same replies -/

theorem SameReplies.refl (p : Conn B × List Inventory) : SameReplies p p :=
  ⟨rfl, rfl, rfl, rfl, rfl, rfl, rfl, rfl⟩

theorem SameReplies.symm (h : SameReplies p q) : SameReplies q p :=
  ⟨h.status.symm, h.relayTx.symm, h.noBan.symm, h.continuationBlock.symm, h.answers.symm,
    h.missed.symm, h.broadcast.symm, h.taken.symm⟩

theorem SameReplies.trans (h : SameReplies p q) (h' : SameReplies q r) : SameReplies p r :=
  ⟨h.status.trans h'.status, h.relayTx.trans h'.relayTx, h.noBan.trans h'.noBan,
    h.continuationBlock.trans h'.continuationBlock, h.answers.trans h'.answers,
    h.missed.trans h'.missed, h.broadcast.trans h'.broadcast, h.taken.trans h'.taken⟩

theorem SameReplies.read (h : SameReplies (c, notFound) q) :
    SameReplies (read c, notFound) q :=
  ⟨h.status, h.relayTx, h.noBan, h.continuationBlock, h.answers, h.missed, h.broadcast, h.taken⟩

theorem SameReplies.take (h : SameReplies p q) : SameReplies (take p.1, p.2) (take q.1, q.2) :=
  ⟨h.status, h.relayTx, h.noBan, h.continuationBlock, h.answers, h.missed, h.broadcast,
    congrArg (· + 1) h.taken⟩

/-- A message that is no `notfound`. -/
def IsAnswer : Msg B → Prop
  | .notFound _ => False
  | _ => True

theorem answers_send {m : Msg B} (hm : IsAnswer m) :
    answers (send c m) = answers c ++ [m] := by
  unfold answers send
  rw [List.filter_append]
  cases m <;> first | rfl | exact hm.elim

theorem missed_send {m : Msg B} (hm : IsAnswer m) : missed (send c m) = missed c := by
  unfold missed send
  rw [List.flatMap_append]
  cases m <;> first | exact List.append_nil _ | exact hm.elim

theorem SameReplies.send {m : Msg B} (hm : IsAnswer m) (h : SameReplies p q) :
    SameReplies (send p.1 m, p.2) (send q.1 m, q.2) :=
  ⟨h.status, h.relayTx, h.noBan, h.continuationBlock,
    by rw [answers_send hm, answers_send hm, h.answers],
    by rw [missed_send hm, missed_send hm, h.missed], h.broadcast, h.taken⟩

/-- The `notfound` of a call groups its misses, and changes nothing else. -/
theorem sameReplies_sendNotFound (c : Conn B) (notFound : List Inventory) :
    SameReplies (sendNotFound notFound c, []) (c, notFound) := by
  unfold sendNotFound
  split
  · next h =>
    rw [h]
    exact SameReplies.refl _
  · refine ⟨rfl, rfl, rfl, rfl, ?_, ?_, rfl, rfl⟩
    · unfold answers Getdata.send
      rw [List.filter_append]
      exact List.append_nil _
    · unfold missed Getdata.send
      rw [List.flatMap_append, List.append_nil]
      exact congrArg _ (List.append_nil notFound)

/-! ## One item -/

theorem SameReplies.serveGetdataTx (h : SameReplies p q) :
    SameReplies (serveGetdataTx w item p.1 p.2) (serveGetdataTx w item q.1 q.2) := by
  unfold Getdata.serveGetdataTx
  rw [h.relayTx]
  split
  · exact h
  · cases findTxForGetdata w item.hash (item.typeCode == .msgWtx) with
    | none =>
      refine ⟨h.status, h.relayTx, h.noBan, h.continuationBlock, h.answers, ?_, h.broadcast,
        h.taken⟩
      rw [← List.append_assoc, h.missed, List.append_assoc]
    | some tx =>
      have hsent := h.send
        (m := .tx tx (item.typeCode == .msgWitnessTx || item.typeCode == .msgWtx)) trivial
      exact ⟨hsent.status, hsent.relayTx, hsent.noBan, hsent.continuationBlock, hsent.answers,
        hsent.missed, congrArg (· ++ [tx.id]) h.broadcast, hsent.taken⟩

theorem SameReplies.stop (h : SameReplies p q) : SameReplies (stop p.1, p.2) (stop q.1, q.2) :=
  ⟨rfl, h.relayTx, h.noBan, h.continuationBlock, h.answers, h.missed, h.broadcast, h.taken⟩

theorem SameReplies.serveGetdataBlock (h : SameReplies p q) :
    SameReplies (serveGetdataBlock w item p.1, p.2) (serveGetdataBlock w item q.1, q.2) := by
  unfold Getdata.serveGetdataBlock
  rw [h.noBan]
  split
  · exact h.stop
  split
  · exact h
  split
  · exact h
  split
  · exact h.stop
  cases w.blockAnswer item with
  | none => exact h.stop
  | some answer =>
    cases answer with
    | none => exact h
    | some answer =>
      have hsent := h.send (m := .block answer) trivial
      have hcont : (Getdata.send p.1 (.block answer)).continuationBlock =
          (Getdata.send q.1 (.block answer)).continuationBlock := hsent.continuationBlock
      dsimp only
      rw [hcont]
      split
      · have hinv := hsent.send (m := .inv [⟨.msgBlock, w.tip⟩]) trivial
        exact ⟨hinv.status, hinv.relayTx, hinv.noBan, rfl, hinv.answers, hinv.missed,
          hinv.broadcast, hinv.taken⟩
      · exact hsent

theorem SameReplies.serveItem (h : SameReplies p q) :
    SameReplies (serveItem env p item) (serveItem env q item) := by
  unfold Getdata.serveItem
  rw [h.taken]
  split
  · exact h.take.serveGetdataTx
  · split
    · exact h.take.serveGetdataBlock
    · exact h.take

theorem SameReplies.serveAll (h : SameReplies p q) :
    SameReplies (serveAll env items p) (serveAll env items q) := by
  induction items generalizing p q with
  | nil => exact h
  | cons item items ih => exact ih h.serveItem

theorem serveAll_append (xs ys : List Inventory) (p : Conn B × List Inventory) :
    serveAll env (xs ++ ys) p = serveAll env ys (serveAll env xs p) := List.foldl_append

/-! ## Counting replies -/

/-- A `tx` message. -/
def isTxMsg : Msg B → Bool
  | .tx .. => true
  | _ => false

/-- The transactions answered so far, by their `tx` or by a miss. -/
def txReplies (p : Conn B × List Inventory) : ℕ :=
  (answers p.1).countP isTxMsg + (missed p.1 ++ p.2).length

theorem SameReplies.txReplies_eq (h : SameReplies p q) : txReplies p = txReplies q := by
  rw [txReplies, h.answers, h.missed, txReplies]

/-- What serving an item keeps. -/
structure Keeps (c d : Conn B) : Prop where
  relayTx : d.relayTx = c.relayTx
  closed : c.status = .closed → d.status = .closed

theorem Keeps.refl (c : Conn B) : Keeps c c := ⟨rfl, fun h => h⟩

theorem Keeps.trans {e : Conn B} (h : Keeps c d) (h' : Keeps d e) : Keeps c e :=
  ⟨h'.relayTx.trans h.relayTx, fun hc => h'.closed (h.closed hc)⟩

theorem keeps_serveGetdataTx (notFound : List Inventory) :
    Keeps c (serveGetdataTx w item c notFound).1 := by
  unfold serveGetdataTx
  split
  · exact Keeps.refl c
  · split
    · exact ⟨rfl, fun h => h⟩
    · exact Keeps.refl c

theorem status_serveGetdataTx (notFound : List Inventory) :
    (serveGetdataTx w item c notFound).1.status = c.status := by
  unfold serveGetdataTx
  split
  · rfl
  · split <;> rfl

theorem keeps_serveGetdataBlock : Keeps c (serveGetdataBlock w item c) := by
  unfold serveGetdataBlock
  split
  · exact ⟨rfl, fun _ => rfl⟩
  split
  · exact Keeps.refl c
  split
  · exact Keeps.refl c
  split
  · exact ⟨rfl, fun _ => rfl⟩
  split
  · exact ⟨rfl, fun _ => rfl⟩
  · exact Keeps.refl c
  · dsimp only
    split
    · exact ⟨rfl, fun h => h⟩
    · exact ⟨rfl, fun h => h⟩

theorem keeps_serveItem : Keeps p.1 (serveItem env p item).1 := by
  unfold serveItem
  split
  · exact Keeps.trans (d := take p.1) ⟨rfl, fun h => h⟩ (keeps_serveGetdataTx p.2)
  · split
    · exact Keeps.trans (d := take p.1) ⟨rfl, fun h => h⟩ keeps_serveGetdataBlock
    · exact ⟨rfl, fun h => h⟩

theorem keeps_serveAll (items : List Inventory) (p : Conn B × List Inventory) :
    Keeps p.1 (serveAll env items p).1 := by
  induction items generalizing p with
  | nil => exact Keeps.refl p.1
  | cons item items ih => exact keeps_serveItem.trans (ih _)

theorem txReplies_serveGetdataTx (hrelay : c.relayTx = true) (notFound : List Inventory) :
    txReplies (serveGetdataTx w item c notFound) = txReplies (c, notFound) + 1 := by
  unfold serveGetdataTx
  rw [hrelay, if_neg (by decide)]
  split
  · next tx _ =>
    show (answers (send c _)).countP isTxMsg + (missed (send c _) ++ notFound).length = _
    have hanswer : IsAnswer (.tx tx (item.typeCode == .msgWitnessTx || item.typeCode == .msgWtx) :
        Msg B) := trivial
    rw [answers_send hanswer, missed_send hanswer, List.countP_append]
    show _ + 1 + _ = (answers c).countP isTxMsg + (missed c ++ notFound).length + 1
    omega
  · rw [txReplies, txReplies]
    simp only [List.length_append, List.length_singleton]
    omega

theorem txReplies_serveGetdataBlock (notFound : List Inventory) :
    txReplies (serveGetdataBlock w item c, notFound) = txReplies (c, notFound) := by
  have hblock : ∀ {m : Msg B} {e : Conn B}, IsAnswer m → isTxMsg m = false →
      txReplies (send e m, notFound) = txReplies (e, notFound) := by
    intro m e hm htx
    rw [txReplies, answers_send hm, missed_send hm, List.countP_append, List.countP_singleton, htx]
    rfl
  unfold serveGetdataBlock
  split
  · rfl
  split
  · rfl
  split
  · rfl
  split
  · rfl
  split
  · rfl
  · rfl
  · next answer _ =>
    dsimp only
    split
    · exact (hblock (m := .inv [⟨.msgBlock, w.tip⟩]) trivial rfl).trans (hblock trivial rfl)
    · exact hblock trivial rfl

/-- **Each transaction item brings one reply**, any other none. -/
theorem txReplies_serveItem (hrelay : p.1.relayTx = true) :
    txReplies (serveItem env p item) = txReplies p + if item.isTx then 1 else 0 := by
  unfold serveItem
  cases hitem : item.isTx with
  | true =>
    rw [if_pos rfl, if_pos rfl]
    exact txReplies_serveGetdataTx (c := take p.1) hrelay p.2
  | false =>
    rw [if_neg Bool.false_ne_true, if_neg Bool.false_ne_true]
    split
    · exact txReplies_serveGetdataBlock p.2
    · rfl

/-- The transaction items of a request. -/
def txCount (items : List Inventory) : ℕ := items.countP Inventory.isTx

theorem txReplies_serveAll (hrelay : p.1.relayTx = true) :
    txReplies (serveAll env items p) = txReplies p + txCount items := by
  induction items generalizing p with
  | nil => rfl
  | cons item items ih =>
    have hkeep : (serveItem env p item).1.relayTx = p.1.relayTx := keeps_serveItem.relayTx
    show txReplies (serveAll env items (serveItem env p item)) = _
    rw [ih (hkeep.trans hrelay), txReplies_serveItem hrelay, txCount, txCount, List.countP_cons]
    omega

/-! ## One call -/

/-- **A transaction is popped unanswered**: of the reads of `pause_send` from the
`n`-th on, the first to find it set finds a transaction in front, and the next finds
it clear. -/
def slips (pauseSend : ℕ → Bool) : List Inventory → ℕ → Bool
  | [], _ => false
  | item :: rest, n =>
    item.isTx && if pauseSend n then !pauseSend (n + 1) else slips pauseSend rest (n + 1)

/-- What the loop over the transactions leaves. -/
structure LoopLeaves (env : Env B) (items : List Inventory) (c : Conn B)
    (notFound : List Inventory) (l : Serving B) : Prop where
  notClosed : l.closed = false
  taken : ∃ xs, items = xs ++ l.items ∧ (∀ x ∈ xs, x.isTx = true) ∧
    SameReplies (l.conn, l.notFound) (serveAll env xs (c, notFound))
  slip : slips env.pauseSend items c.reads = true ↔
    ∃ x rest, l.items = x :: rest ∧ x.isTx = true ∧ env.pauseSend l.conn.reads = false

theorem serveTxs_leaves (hopen : c.status ≠ .closed) :
    LoopLeaves env items c notFound (serveTxs env items c notFound) := by
  induction items generalizing c notFound with
  | nil => exact ⟨rfl, ⟨[], rfl, by simp, SameReplies.refl _⟩, by simp [slips, serveTxs]⟩
  | cons item rest ih =>
    unfold serveTxs
    cases hitem : item.isTx with
    | false =>
      refine ⟨rfl, ⟨[], rfl, by simp, SameReplies.refl _⟩, ?_⟩
      rw [slips, hitem, Bool.false_and]
      refine ⟨nofun, ?_⟩
      rintro ⟨x, rest', heq, hx, -⟩
      obtain ⟨rfl, -⟩ := List.cons.inj heq
      rw [hitem] at hx
      cases hx
    | true =>
      rw [if_neg (by decide), if_neg hopen]
      cases hpause : env.pauseSend c.reads with
      | true =>
        refine ⟨rfl, ⟨[], rfl, by simp, (SameReplies.refl _).read⟩, ?_⟩
        rw [slips, hitem, hpause, Bool.true_and, if_pos rfl, Bool.not_eq_true']
        constructor
        · exact fun h => ⟨item, rest, rfl, hitem, h⟩
        · rintro ⟨x, rest', -, -, h⟩
          exact h
      | false =>
        rw [if_neg Bool.false_ne_true]
        dsimp only
        have hstatus : (serveGetdataTx (env.worlds c.taken) item (take (read c)) notFound).1.status =
            c.status := status_serveGetdataTx notFound
        have hreads : (serveGetdataTx (env.worlds c.taken) item (take (read c)) notFound).1.reads =
            c.reads + 1 := by
          unfold serveGetdataTx
          split
          · rfl
          · split <;> rfl
        have hserved : SameReplies
            (serveGetdataTx (env.worlds c.taken) item (take (read c)) notFound)
            (serveItem env (c, notFound) item) := by
          have hread : SameReplies (take (read c), notFound) (take c, notFound) :=
            ((SameReplies.refl (c, notFound)).read).take
          unfold serveItem
          rw [if_pos hitem]
          exact hread.serveGetdataTx
        generalize serveGetdataTx (env.worlds c.taken) item (take (read c)) notFound = p at *
        have hloop : LoopLeaves env rest p.1 p.2 (serveTxs env rest p.1 p.2) :=
          ih (by rw [hstatus]; exact hopen)
        obtain ⟨hclosed, ⟨xs, hxs, htxs, hsame⟩, hslip⟩ := hloop
        refine ⟨hclosed, ⟨item :: xs, ?_, ?_, ?_⟩, ?_⟩
        · rw [List.cons_append, ← hxs]
        · exact List.forall_mem_cons.mpr ⟨hitem, htxs⟩
        · exact hsame.trans hserved.serveAll
        · rw [slips, hitem, hpause, Bool.true_and, if_neg Bool.false_ne_true, ← hreads, hslip]

/-- What a call leaves, given whether it slips. -/
structure CallLeaves (env : Env B) (items : List Inventory) (c : Conn B)
    (items' : List Inventory) (c' : Conn B) : Prop where
  taken : ∃ xs, items = xs ++ items' ∧ (xs.filter fun x => !x.isTx).length ≤ 1 ∧
    (slips env.pauseSend items c.reads = false →
      SameReplies (c', []) (serveAll env xs (c, []))) ∧
    (c.relayTx = true →
      txReplies (c', []) + (if slips env.pauseSend items c.reads then 1 else 0) =
        txReplies (c, []) + txCount xs)
  keeps : Keeps c c'

theorem filter_eq_nil_of_isTx (h : ∀ x ∈ xs, x.isTx = true) :
    xs.filter (fun x => !x.isTx) = [] :=
  List.filter_eq_nil_iff.mpr fun x hx => by rw [h x hx]; decide

/-- What the item after the loop leaves, given whether it is a transaction popped
unanswered. -/
structure OneLeaves (env : Env B) (slip : Bool) (items : List Inventory)
    (c : Conn B) (notFound items' : List Inventory) (c' : Conn B) : Prop where
  taken : ∃ ys, items = ys ++ items' ∧ (ys.filter fun x => !x.isTx).length ≤ 1 ∧
    (slip = false → SameReplies (c', notFound) (serveAll env ys (c, notFound))) ∧
    txReplies (c', notFound) + (if slip then 1 else 0) = txReplies (c, notFound) + txCount ys
  keeps : Keeps c c'

theorem OneLeaves.none (hc : SameReplies (d, notFound) (c, notFound)) :
    OneLeaves env false items c notFound items d :=
  ⟨⟨[], rfl, by simp, fun _ => hc, hc.txReplies_eq⟩, hc.relayTx, fun h => hc.status.trans h⟩

theorem isBlock_of_isTx (h : item.isTx = true) : item.isBlock = false := by
  obtain ⟨typeCode, hash⟩ := item
  cases typeCode <;> first | rfl | cases h

/-- The item after the loop, where `pause_send` is clear. -/
theorem oneLeaves_cons (x : Inventory) (rest : List Inventory) (c : Conn B)
    (notFound : List Inventory) :
    OneLeaves env x.isTx (x :: rest) c notFound rest
      (if x.isBlock then serveGetdataBlock (env.worlds c.taken) x (take (read c))
        else take (read c)) := by
  have hread : SameReplies (take (read c), notFound) (take c, notFound) :=
    ((SameReplies.refl (c, notFound)).read).take
  have hkeep : Keeps c (take (read c)) := ⟨rfl, fun h => h⟩
  cases hx : x.isTx with
  | true =>
    rw [isBlock_of_isTx hx, if_neg Bool.false_ne_true]
    refine ⟨⟨[x], rfl, by simp [hx], nofun, ?_⟩, hkeep⟩
    rw [if_pos rfl, txCount, List.countP_singleton, if_pos hx]
    rfl
  | false =>
    have hcount : txCount [x] = 0 := by
      rw [txCount, List.countP_singleton, hx]
      rfl
    have hplain : serveAll env [x] (c, notFound) =
        (if x.isBlock then serveGetdataBlock (env.worlds c.taken) x (take c) else take c,
          notFound) := by
      show serveItem env (c, notFound) x = _
      unfold serveItem
      rw [hx, if_neg Bool.false_ne_true]
      split <;> rfl
    cases hblock : x.isBlock with
    | true =>
      refine ⟨⟨[x], rfl, by simp [hx], fun _ => ?_, ?_⟩, hkeep.trans keeps_serveGetdataBlock⟩
      · rw [hplain, hblock]
        exact hread.serveGetdataBlock
      · rw [hcount]
        exact txReplies_serveGetdataBlock notFound
    | false =>
      refine ⟨⟨[x], rfl, by simp [hx], fun _ => ?_, ?_⟩, hkeep⟩
      · rw [hplain, hblock]
        exact hread
      · rw [hcount]
        rfl

/-- The item after the loop. -/
theorem serveOne_leaves {l : Serving B} (hl : LoopLeaves env items c [] l) :
    OneLeaves env (slips env.pauseSend items c.reads) l.items l.conn l.notFound
      (serveOne env l.items l.conn).1 (serveOne env l.items l.conn).2 := by
  have hslip := hl.slip
  cases hitems : l.items with
  | nil =>
    have hno : slips env.pauseSend items c.reads = false := by
      rw [← Bool.not_eq_true, hslip, hitems]
      rintro ⟨x, rest, h, -⟩
      cases h
    rw [hno]
    exact OneLeaves.none (SameReplies.refl _)
  | cons x rest =>
    unfold serveOne
    dsimp only
    cases hpause : env.pauseSend l.conn.reads with
    | true =>
      have hno : slips env.pauseSend items c.reads = false := by
        rw [← Bool.not_eq_true, hslip]
        rintro ⟨x, rest, -, -, h⟩
        rw [hpause] at h
        cases h
      rw [hno, if_pos rfl]
      exact OneLeaves.none (SameReplies.refl _).read
    | false =>
      have hx : slips env.pauseSend items c.reads = x.isTx := by
        rw [Bool.eq_iff_iff, hslip, hitems]
        constructor
        · rintro ⟨y, rest', h, hy, -⟩
          obtain ⟨rfl, -⟩ := List.cons.inj h
          exact hy
        · exact fun h => ⟨x, rest, rfl, h, hpause⟩
      rw [hx, if_neg Bool.false_ne_true]
      have hone : OneLeaves env x.isTx (x :: rest) l.conn l.notFound rest _ :=
        oneLeaves_cons x rest l.conn l.notFound
      split at hone
      · next hblock =>
        rw [if_pos hblock]
        exact hone
      · next hblock =>
        rw [if_neg hblock]
        exact hone

/-- **What a call leaves** on an open connection. -/
theorem advanceGetdata_leaves (hopen : c.status ≠ .closed) :
    ∃ items' c', advanceGetdata env items c = (items'.isEmpty, items', c') ∧
      CallLeaves env items c items' c' := by
  have hl : LoopLeaves env items c [] (serveTxs env items c []) := serveTxs_leaves hopen
  obtain ⟨⟨ys, hys, hone, hserve, hcount⟩, hkept⟩ := serveOne_leaves hl
  obtain ⟨hclosed, ⟨xs, hxs, htxs, hsame⟩, -⟩ := hl
  unfold advanceGetdata
  dsimp only
  rw [hclosed, if_neg Bool.false_ne_true]
  generalize serveTxs env items c [] = l at *
  have hgroup := sameReplies_sendNotFound (serveOne env l.items l.conn).2 l.notFound
  refine ⟨(serveOne env l.items l.conn).1, sendNotFound l.notFound (serveOne env l.items l.conn).2,
    rfl, ⟨xs ++ ys, ?_, ?_, fun hno => ?_, fun hrelay => ?_⟩, ?_⟩
  · rw [List.append_assoc, ← hys, hxs]
  · rw [List.filter_append, filter_eq_nil_of_isTx htxs, List.nil_append]
    exact hone
  · rw [serveAll_append]
    exact hgroup.trans ((hserve hno).trans hsame.serveAll)
  · rw [hgroup.txReplies_eq, hcount, hsame.txReplies_eq, txReplies_serveAll hrelay, txCount,
      txCount, txCount, List.countP_append, Nat.add_assoc]
  · have hfirst : Keeps c l.conn := by
      have hall : Keeps c (serveAll env xs (c, [])).1 := keeps_serveAll xs (c, [])
      exact ⟨hsame.relayTx.trans hall.relayTx, fun h => hsame.status.trans (hall.closed h)⟩
    have hlast : Keeps (serveOne env l.items l.conn).2
        (sendNotFound l.notFound (serveOne env l.items l.conn).2) :=
      ⟨hgroup.relayTx, fun h => hgroup.status.trans h⟩
    exact hfirst.trans (hkept.trans hlast)

/-! ## The calls of a request -/

/-- The items and the connection before the `k`-th call. -/
def stateAt (env : Env B) (items : List Inventory) (c : Conn B) :
    ℕ → List Inventory × Conn B
  | 0 => (items, c)
  | k + 1 => ((afterCalls env items c k).pending.getD [], afterCalls env items c k)

/-- The `k`-th call pops a transaction unanswered. -/
def slipsAt (env : Env B) (items : List Inventory) (c : Conn B) (k : ℕ) : Bool :=
  slips env.pauseSend (stateAt env items c k).1 (stateAt env items c k).2.reads

theorem CallLeaves.nil (c : Conn B) : CallLeaves env [] c [] c :=
  ⟨⟨[], rfl, by simp, fun _ => SameReplies.refl _, fun _ => rfl⟩, Keeps.refl c⟩

theorem callGetdata_leaves (hopen : c.status ≠ .closed) :
    CallLeaves env items c ((callGetdata env items c).pending.getD [])
      (callGetdata env items c) := by
  obtain ⟨items', c', heq, ⟨xs, hxs, hone, hserve, hcount⟩, hkeeps⟩ :
      ∃ items' c', advanceGetdata env items c = (items'.isEmpty, items', c') ∧
        CallLeaves env items c items' c' := advanceGetdata_leaves hopen
  have hcall : callGetdata env items c =
      { c' with pending := if items'.isEmpty then none else some items' } := by
    unfold callGetdata
    rw [heq]
  have hpending : (callGetdata env items c).pending.getD [] = items' := by
    rw [hcall]
    cases items' <;> rfl
  have hsame : SameReplies (callGetdata env items c, []) (c', ([] : List Inventory)) := by
    rw [hcall]
    exact ⟨rfl, rfl, rfl, rfl, rfl, rfl, rfl, rfl⟩
  rw [hpending]
  refine ⟨⟨xs, hxs, hone, fun hno => hsame.trans (hserve hno), fun hrelay => ?_⟩, ?_⟩
  · rw [hsame.txReplies_eq]
    exact hcount hrelay
  · exact ⟨hsame.relayTx.trans hkeeps.relayTx, fun h => hsame.status.trans (hkeeps.closed h)⟩

/-- **One more call.** -/
theorem stateAt_leaves {k : ℕ} (hopen : (stateAt env items c k).2.status ≠ .closed) :
    CallLeaves env (stateAt env items c k).1 (stateAt env items c k).2
      (stateAt env items c (k + 1)).1 (stateAt env items c (k + 1)).2 := by
  cases k with
  | zero => exact callGetdata_leaves hopen
  | succ k =>
    simp only [stateAt, afterCalls] at hopen ⊢
    generalize afterCalls env items c k = d at *
    unfold resumeOne
    cases hpending : d.pending with
    | none =>
      dsimp only
      rw [hpending]
      exact CallLeaves.nil d
    | some items' =>
      dsimp only
      rw [if_neg hopen]
      exact callGetdata_leaves hopen

/-- A connection that is open was open before. -/
theorem stateAt_open (hopen : c.status ≠ .closed) {m : ℕ} {k : ℕ} (hk : k ≤ m)
    (hm : (stateAt env items c m).2.status ≠ .closed) :
    (stateAt env items c k).2.status ≠ .closed := by
  induction m with
  | zero =>
    obtain rfl : k = 0 := by omega
    exact hm
  | succ m ih =>
    rcases Nat.lt_or_eq_of_le hk with hlt | rfl
    · refine ih (by omega) fun hclosed => ?_
      cases m with
      | zero => exact hopen hclosed
      | succ m =>
        refine hm ?_
        simp only [stateAt, afterCalls] at hclosed ⊢
        generalize afterCalls env items c m = d at *
        unfold resumeOne
        cases d.pending with
        | none => exact hclosed
        | some items' =>
          dsimp only
          rw [if_pos hclosed]
          exact hclosed
    · exact hm

/-- What the calls before the `k`-th come to. -/
structure ServedUpTo (env : Env B) (items : List Inventory) (c : Conn B) (k : ℕ) :
    Prop where
  relayTx : (stateAt env items c k).2.relayTx = true
  taken : ∃ xs, items = xs ++ (stateAt env items c k).1 ∧
    ((∀ j < k, slipsAt env items c j = false) →
      SameReplies ((stateAt env items c k).2, []) (serveAll env xs (c, []))) ∧
    txReplies ((stateAt env items c k).2, []) + (List.range k).countP (slipsAt env items c) =
      txReplies (c, []) + txCount xs

theorem servedUpTo (hopen : c.status ≠ .closed) (hrelay : c.relayTx = true) {k : ℕ}
    (hk : (stateAt env items c k).2.status ≠ .closed) : ServedUpTo env items c k := by
  induction k with
  | zero => exact ⟨hrelay, [], rfl, fun _ => SameReplies.refl _, rfl⟩
  | succ k ih =>
    have hbefore := stateAt_open hopen (Nat.le_succ k) hk
    obtain ⟨hrelay', xs, hxs, hserved, hcounted⟩ := ih hbefore
    obtain ⟨⟨ys, hys, -, hserve, hcount⟩, hkeeps⟩ := stateAt_leaves hbefore
    refine ⟨hkeeps.relayTx.trans hrelay', xs ++ ys, ?_, fun hno => ?_, ?_⟩
    · rw [List.append_assoc, ← hys, ← hxs]
    · rw [serveAll_append]
      exact (hserve (hno k (Nat.lt_succ_self k))).trans
        (hserved fun j hj => hno j (Nat.lt_succ_of_lt hj)).serveAll
    · have hturn := hcount hrelay'
      rw [List.range_succ, List.countP_append, List.countP_singleton, txCount, List.countP_append]
      unfold txCount at hturn hcounted
      unfold slipsAt at hcounted ⊢
      omega

/-! ## Nothing lost -/

/-- **No item of the request is lost** over the calls up to the `n`-th: items are
taken in order, at most one a call that is no transaction; each transaction brought
one reply; and the replies are those of serving each item in turn, which are those of
the calls with `pause_send` never set. -/
structure LosesNothing (env : Env B) (items : List Inventory) (c : Conn B) (n : ℕ) :
    Prop where
  inOrder : ∀ k ≤ n, ∃ xs,
    (stateAt env items c k).1 = xs ++ (stateAt env items c (k + 1)).1 ∧
      (xs.filter fun x => !x.isTx).length ≤ 1
  replied : txReplies (afterCalls env items c n, []) = txReplies (c, []) + txCount items
  inTurn : SameReplies (afterCalls env items c n, []) (serveAll env items (c, []))
  unpaused : ∀ m, (afterCalls { env with pauseSend := fun _ => false } items c m).pending = none →
    (afterCalls { env with pauseSend := fun _ => false } items c m).status ≠ .closed →
    SameReplies (afterCalls env items c n, [])
      (afterCalls { env with pauseSend := fun _ => false } items c m, [])

theorem slips_never (items : List Inventory) (n : ℕ) : slips (fun _ => false) items n = false := by
  induction items generalizing n with
  | nil => rfl
  | cons item rest ih => rw [slips, ih, if_neg Bool.false_ne_true, Bool.and_false]

/-- **No item is lost to a pause exactly where no call slips.** -/
theorem losesNothing_iff (env : Env B) (items : List Inventory) (c : Conn B)
    (hopen : c.status ≠ .closed) (hrelay : c.relayTx = true) (n : ℕ)
    (hdone : (afterCalls env items c n).pending = none)
    (hstays : (afterCalls env items c n).status ≠ .closed) :
    LosesNothing env items c n ↔ ∀ k ≤ n, slipsAt env items c k = false := by
  have hempty : (stateAt env items c (n + 1)).1 = [] := by
    rw [stateAt, hdone]
    rfl
  have hserved : ServedUpTo env items c (n + 1) := servedUpTo hopen hrelay hstays
  obtain ⟨-, xs, hxs, hsame, hcount⟩ := hserved
  rw [hempty, List.append_nil] at hxs
  subst hxs
  constructor
  · intro h k hk
    have hreplied := h.replied
    have hzero : (List.range (n + 1)).countP (slipsAt env items c) = 0 := by
      change txReplies (afterCalls env items c n, []) + _ = _ at hcount
      omega
    rw [List.countP_eq_zero] at hzero
    exact Bool.not_eq_true _ ▸ hzero k (List.mem_range.mpr (by omega))
  · intro hno
    have hturn : SameReplies (afterCalls env items c n, []) (serveAll env items (c, [])) :=
      hsame fun j hj => hno j (by omega)
    refine ⟨fun k hk => ?_, ?_, hturn, fun m hm hmopen => ?_⟩
    · have hk' : (stateAt env items c k).2.status ≠ .closed :=
        stateAt_open hopen (Nat.le_succ_of_le hk) hstays
      obtain ⟨⟨ys, hys, hone, -⟩, -⟩ := stateAt_leaves hk'
      exact ⟨ys, hys, hone⟩
    · rw [hturn.txReplies_eq, txReplies_serveAll hrelay]
    · obtain ⟨-, ys, hys, hsame', -⟩ :
          ServedUpTo { env with pauseSend := fun _ => false } items c (m + 1) :=
        servedUpTo hopen hrelay hmopen
      rw [stateAt, hm, Option.getD_none, List.append_nil] at hys
      subst hys
      exact hturn.trans (hsame' fun j _ => slips_never _ _).symm

/-- A mempool that holds the transaction 5, and a block store that answers. -/
def smallWorld : World Unit where
  txidIndex h := if h = 5 then some 5 else none
  entries h := if h = 5 then some (1, ⟨5, [], []⟩) else none
  mostRecentTxs := none
  lastInvSequence := 2
  indexed _ := true
  blockRequestAllowed _ := true
  pruned := false
  belowPruneThreshold _ := false
  blockAnswer _ := some (some ())
  tip := 9

/-- `pause_send` set at the reads `l` and clear at any other. -/
def pausedAt (l : List ℕ) : Env Unit := ⟨fun _ => smallWorld, fun n => decide (n ∈ l)⟩

/-- A connection that was sent nothing. -/
def idleConn : Conn Unit := ⟨.connected, true, false, none, [], [], none, 0, 0⟩

/-- A transaction that is held, one that is not, and a block. -/
def threeItems : List Inventory := [⟨.msgTx, 5⟩, ⟨.msgWtx, 6⟩, ⟨.msgBlock, 7⟩]

/-- A call paused at the second transaction and still paused at the next read, then
a call that finishes. -/
theorem losesNothing_paused : slipsAt (pausedAt [1, 2]) threeItems idleConn 0 = false ∧
    (afterCalls (pausedAt [1, 2]) threeItems idleConn 1).sent =
      [.tx ⟨5, [], []⟩ false, .block (), .notFound [⟨.msgWtx, 6⟩]] ∧
    (LosesNothing (pausedAt [1, 2]) threeItems idleConn 1 ↔
      ∀ k ≤ 1, slipsAt (pausedAt [1, 2]) threeItems idleConn k = false) :=
  ⟨by decide, by decide, losesNothing_iff (pausedAt [1, 2]) threeItems idleConn (by decide) rfl 1
    (by decide) (by decide)⟩

/-- **A transaction is lost**: a call finds `pause_send` set before it and clear at
the next read, and pops it unanswered. -/
theorem transaction_lost : idleConn.status ≠ .closed ∧ idleConn.relayTx = true ∧
    (afterCalls (pausedAt [1]) [⟨.msgTx, 5⟩, ⟨.msgWtx, 6⟩] idleConn 0).pending = none ∧
    (afterCalls (pausedAt [1]) [⟨.msgTx, 5⟩, ⟨.msgWtx, 6⟩] idleConn 0).sent =
      [.tx ⟨5, [], []⟩ false] ∧
    ¬LosesNothing (pausedAt [1]) [⟨.msgTx, 5⟩, ⟨.msgWtx, 6⟩] idleConn 0 := by
  refine ⟨by decide, rfl, by decide, by decide, fun h => ?_⟩
  have hreplied := h.replied
  revert hreplied
  decide

end BtclibNode.Getdata
