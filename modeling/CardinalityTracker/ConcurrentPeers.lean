import CardinalityTracker.Engine
import CardinalityTracker.Lib.JoinFold
import CardinalityTracker.Lib.RwMutex

/-!
# The connections to the peers (`internal/server/grpc.go`)

Handlers of concurrent requests share the map `conns` of a server, under its mutex `mu`:
`getPeerClient` looks an address up and dials it when it is missing, `SetDialOptions` changes what
later dials use, and `Close` closes what is in the map. `peers_cached` says what the cache is for,
over every interleaving of such calls and every pattern of dials that fail: a peer is dialled
successfully once, all requests to it use that one connection, and `Close` closes every connection
that has been handed out before.

A connection is the number of the successful dial that made it. Dial options are any type `O`.
-/

namespace CardinalityTracker
namespace Conns

open Lib Lib.RwMutex

/-- What the calls share: the fields `conns` and `dialOpts` of the server, and on the side of the
network the dials so far, the connections they made, with the options used, and those closed. -/
structure Peers (O : Type) where
  conns : StringMap ℕ
  dialOpts : List O
  attempts : ℕ
  dialed : List (GoString × List O)
  closed : List ℕ

/-- A server just made by `New`. -/
def Peers.new (O : Type) : Peers O := ⟨∅, [], 0, [], []⟩

inductive Op (O : Type)
  | setDialOptions (opts : List O)
  | getPeerClient (addr : GoString)
  | close (order : RangeOrder)

inductive Result
  | done
  | client (conn : Except GoString ℕ)

section Code

variable {O : Type} (insecure : O) (dial : ℕ → Option GoString)

/-- `grpc.Dial`; `dial n` is the error of the `n`-th dial. -/
def Peers.dialAddr (addr : GoString) (opts : List O) (p : Peers O) : Peers O :=
  { p with
    attempts := p.attempts + 1
    dialed := if dial p.attempts = none then p.dialed ++ [(addr, opts)] else p.dialed }

/-- `for _, conn := range s.conns { _ = conn.Close() }`. -/
def closeStmts : List (GoString × ℕ) → Body (Peers O) Result
  | [] => .ret .done
  | (_, conn) :: conns =>
    .stmt (fun p => { p with closed := p.closed ++ [conn] }) fun _ => closeStmts conns

/-- The methods. A `sync.Mutex` is a readers-writer mutex that is only taken for writing. -/
def code : Op O → Code (Peers O) Result
  | .setDialOptions opts =>
    .take .write <| .stmt (fun p => { p with dialOpts := opts }) fun _ => .ret .done
  | .getPeerClient addr =>
    .take .write <| .stmt id fun p =>
      match p.conns[addr]? with
      | some conn => .ret (.client (.ok conn))
      | none =>
        .stmt id fun p =>
          let opts := insecure :: p.dialOpts
          .stmt (Peers.dialAddr dial addr opts) fun p =>
            match dial p.attempts with
            | some err => .ret (.client (.error err))
            | none =>
              let conn := p.dialed.length
              .stmt (fun p => { p with conns := p.conns.insert addr conn }) fun _ =>
                .ret (.client (.ok conn))
  | .close order => .take .write <| .stmt id fun p => closeStmts (order.range p.conns)

/-- A call as one step. -/
def Op.apply (op : Op O) (p : Peers O) : Peers O × Result :=
  match op with
  | .setDialOptions opts => ({ p with dialOpts := opts }, .done)
  | .getPeerClient addr =>
    match p.conns[addr]? with
    | some conn => (p, .client (.ok conn))
    | none =>
      let p' := p.dialAddr dial addr (insecure :: p.dialOpts)
      match dial p.attempts with
      | some err => (p', .client (.error err))
      | none =>
        ({ p' with conns := p.conns.insert addr p.dialed.length }, .client (.ok p.dialed.length))
  | .close order => ({ p with closed := p.closed ++ (order.range p.conns).map Prod.snd }, .done)

end Code

variable {O : Type} {insecure : O} {dial : ℕ → Option GoString} {p : Peers O}

/-! ## A call alone is one step -/

theorem exec_closeStmts (conns : List (GoString × ℕ)) (p : Peers O) :
    (closeStmts conns).exec p = ({ p with closed := p.closed ++ conns.map Prod.snd }, .done) := by
  induction conns generalizing p with
  | nil => simp [closeStmts, Body.exec]
  | cons q conns ih =>
    rw [closeStmts, Body.exec, ih]
    simp

theorem alone_code (op : Op O) (p : Peers O) :
    (code insecure dial op).alone p = op.apply insecure dial p := by
  cases op with
  | setDialOptions opts => rfl
  | close order => exact exec_closeStmts _ p
  | getPeerClient addr =>
    unfold code Op.apply
    simp only [Code.alone, Body.exec, id_eq]
    cases p.conns[addr]? with
    | some conn => rfl
    | none =>
      simp only [Body.exec, id_eq]
      cases dial p.attempts with
      | some err => rfl
      | none => rfl

theorem readOnly_code : ReadOnly (code insecure dial) := by
  intro op body hcode
  cases op <;> cases hcode

/-! ## The cache -/

/-- The map has exactly the connections that have been dialled, each under its address. -/
def Cached (p : Peers O) : Prop :=
  ∀ (addr : GoString) (conn : ℕ),
    p.conns[addr]? = some conn ↔ p.dialed[conn]?.map Prod.fst = some addr

theorem cached_new : Cached (Peers.new O) := by
  intro addr conn
  simp [Peers.new]

/-- No address has two connections. -/
theorem Cached.nodup (h : Cached p) : (p.dialed.map Prod.fst).Nodup := by
  rw [List.nodup_iff_getElem?_ne_getElem?]
  intro i j hij hj heq
  have hlookup : ∀ conn, (p.dialed.map Prod.fst)[conn]? = p.dialed[conn]?.map Prod.fst :=
    fun conn => List.getElem?_map
  rw [hlookup, hlookup] at heq
  rw [List.length_map] at hj
  have hi := (h (p.dialed[j]).1 i).mpr (by rw [heq, List.getElem?_eq_getElem hj, Option.map_some])
  have hj' := (h (p.dialed[j]).1 j).mpr (by rw [List.getElem?_eq_getElem hj, Option.map_some])
  rw [hi, Option.some.injEq] at hj'
  exact Nat.ne_of_lt hij hj'

/-- An address that is in the map is not dialled. -/
theorem apply_found {addr : GoString} {conn : ℕ} (h : p.conns[addr]? = some conn) :
    (Op.getPeerClient addr).apply insecure dial p = (p, .client (.ok conn)) := by
  simp only [Op.apply, h]

/-- A dial that fails changes nothing but the number of dials. -/
theorem apply_failed {addr err : GoString} (h : p.conns[addr]? = none)
    (hdial : dial p.attempts = some err) :
    (Op.getPeerClient addr).apply insecure dial p
      = ({ p with attempts := p.attempts + 1 }, .client (.error err)) := by
  simp only [Op.apply, h, Peers.dialAddr, hdial, reduceCtorEq, if_false]

theorem apply_dialed {addr : GoString} (h : p.conns[addr]? = none)
    (hdial : dial p.attempts = none) :
    (Op.getPeerClient addr).apply insecure dial p
      = ({ p with
            conns := p.conns.insert addr p.dialed.length
            attempts := p.attempts + 1
            dialed := p.dialed ++ [(addr, insecure :: p.dialOpts)] },
          .client (.ok p.dialed.length)) := by
  simp only [Op.apply, h, Peers.dialAddr, hdial, if_true]

/-- A new connection to an address that has none. -/
theorem Cached.insert (h : Cached p) {addr : GoString} (hnone : p.conns[addr]? = none)
    (opts : List O) (attempts : ℕ) :
    Cached { p with
      conns := p.conns.insert addr p.dialed.length
      attempts
      dialed := p.dialed ++ [(addr, opts)] } := by
  intro addr' conn
  rw [getElem?_insert_ite, List.getElem?_append]
  by_cases hlt : conn < p.dialed.length
  · rw [if_pos hlt]
    by_cases haddr : addr = addr'
    · rw [if_pos haddr, ← h, ← haddr, hnone]
      simp [Nat.ne_of_gt hlt]
    · rw [if_neg haddr]
      exact h addr' conn
  · rw [if_neg hlt]
    have hbeyond : p.conns[addr']? ≠ some conn := by
      rw [ne_eq, h, List.getElem?_eq_none (Nat.le_of_not_lt hlt), Option.map_none]
      exact nofun
    by_cases hconn : conn = p.dialed.length
    · subst hconn
      by_cases haddr : addr = addr'
      · simp [haddr]
      · simp [haddr, hbeyond]
    · have hgt : p.dialed.length < conn := by omega
      have hpos : conn - p.dialed.length ≠ 0 := by omega
      by_cases haddr : addr = addr'
      · simp [haddr, hpos, Ne.symm hconn]
      · simp [haddr, hbeyond, hpos]

/-- **Step.** A call keeps the cache, every entry of the map and every closed connection. -/
theorem Cached.apply (insecure : O) (dial : ℕ → Option GoString) (h : Cached p) (op : Op O) :
    Cached (op.apply insecure dial p).1 ∧
      (∀ (addr : GoString) (conn : ℕ), p.conns[addr]? = some conn →
        (op.apply insecure dial p).1.conns[addr]? = some conn) ∧
      ∀ conn ∈ p.closed, conn ∈ (op.apply insecure dial p).1.closed := by
  cases op with
  | setDialOptions opts => exact ⟨h, fun _ _ hc => hc, fun _ hc => hc⟩
  | close order => exact ⟨h, fun _ _ hc => hc, fun _ hc => List.mem_append_left _ hc⟩
  | getPeerClient addr =>
    cases hconn : p.conns[addr]? with
    | some conn =>
      rw [apply_found hconn]
      exact ⟨h, fun _ _ hc => hc, fun _ hc => hc⟩
    | none =>
      cases hdial : dial p.attempts with
      | some err =>
        rw [apply_failed hconn hdial]
        exact ⟨h, fun _ _ hc => hc, fun _ hc => hc⟩
      | none =>
        rw [apply_dialed hconn hdial]
        refine ⟨h.insert hconn _ _, fun addr' conn hc => ?_, fun _ hc => hc⟩
        have hne : addr ≠ addr' := by
          rintro rfl
          rw [hconn] at hc
          cases hc
        dsimp only
        rw [getElem?_insert_ite, if_neg hne]
        exact hc

/-- What `getPeerClient` hands out is in the map. -/
theorem conns_of_client {addr : GoString} {conn : ℕ}
    (h : ((Op.getPeerClient addr).apply insecure dial p).2 = .client (.ok conn)) :
    ((Op.getPeerClient addr).apply insecure dial p).1.conns[addr]? = some conn := by
  cases hconn : p.conns[addr]? with
  | some conn' =>
    rw [apply_found hconn] at h ⊢
    cases h
    exact hconn
  | none =>
    cases hdial : dial p.attempts with
    | some err =>
      rw [apply_failed hconn hdial] at h
      cases h
    | none =>
      rw [apply_dialed hconn hdial] at h ⊢
      cases h
      exact Std.ExtTreeMap.getElem?_insert_self

/-- **Run.** So does a sequence of calls. -/
theorem Cached.applyAll (insecure : O) (dial : ℕ → Option GoString) (h : Cached p)
    (ops : List (Op O)) :
    Cached (RwMutex.applyAll (Op.apply insecure dial) ops p).1 ∧
      (∀ (addr : GoString) (conn : ℕ), p.conns[addr]? = some conn →
        (RwMutex.applyAll (Op.apply insecure dial) ops p).1.conns[addr]? = some conn) ∧
      ∀ conn ∈ p.closed, conn ∈ (RwMutex.applyAll (Op.apply insecure dial) ops p).1.closed := by
  induction ops generalizing p with
  | nil => exact ⟨h, fun _ _ hc => hc, fun _ hc => hc⟩
  | cons op ops ih =>
    obtain ⟨hcached, hconns, hclosed⟩ := h.apply insecure dial op
    obtain ⟨hcached', hconns', hclosed'⟩ := ih hcached
    exact ⟨hcached', fun addr conn hc => hconns' addr conn (hconns addr conn hc),
      fun conn hc => hclosed' conn (hclosed conn hc)⟩

section Log

variable {st : State (Op O) (Peers O) Result} {log before after : List (Op O × Result)}
  {addr : GoString} {conn : ℕ}

/-- What a sequence of calls leaves. -/
def final (insecure : O) (dial : ℕ → Option GoString) (log : List (Op O × Result)) : Peers O :=
  (applyAll (Op.apply insecure dial) (log.map Prod.fst) (Peers.new O)).1

theorem cached_final (insecure : O) (dial : ℕ → Option GoString) (log : List (Op O × Result)) :
    Cached (final insecure dial log) :=
  (cached_new.applyAll insecure dial (log.map Prod.fst)).1

theorem final_append_cons (before after : List (Op O × Result)) (op : Op O) (r : Result) :
    final insecure dial (before ++ (op, r) :: after)
      = (applyAll (Op.apply insecure dial) (after.map Prod.fst)
          (op.apply insecure dial (final insecure dial before)).1).1 := by
  unfold final
  rw [List.map_append, applyAll_append, List.map_cons, applyAll]

/-- What the calls in the order have handed out stays in the map. -/
theorem conns_final (h : Atomic (Op.apply insecure dial) id (Peers.new O) st log)
    (hbefore : ∃ rest, log = before ++ rest)
    (hmem : (.getPeerClient addr, .client (.ok conn)) ∈ before) :
    (final insecure dial before).conns[addr]? = some conn := by
  obtain ⟨rest, hlog⟩ := hbefore
  obtain ⟨pre, post, rfl⟩ := List.append_of_mem hmem
  rw [List.append_assoc, List.cons_append] at hlog
  have hconn := conns_of_client (h.result_at hlog).symm
  have hcached := (cached_final insecure dial pre).apply insecure dial (.getPeerClient addr)
  rw [final_append_cons]
  exact (hcached.1.applyAll insecure dial (post.map Prod.fst)).2.1 addr conn hconn

/-- A `Close` closes what the map has. -/
theorem closed_final (hmem : (final insecure dial before).conns[addr]? = some conn)
    (order : RangeOrder) (r : Result) :
    conn ∈ (final insecure dial (before ++ (.close order, r) :: after)).closed := by
  rw [final_append_cons]
  have hcached := (cached_final insecure dial before).apply insecure dial (.close order)
  refine (hcached.1.applyAll insecure dial (after.map Prod.fst)).2.2 conn ?_
  have hrange : (addr, conn) ∈ order.range (final insecure dial before).conns :=
    (order.perm _).mem_iff.mpr (Std.ExtTreeMap.mem_toList_iff_getElem?_eq_some.mpr hmem)
  exact List.mem_append_right _ (List.mem_map_of_mem hrange)

end Log

/-- **One connection for each peer.** In every interleaving of calls, with any dials failing: two
requests are handed the same connection exactly when they are for the same address; and when no
call is inside, no address has been dialled successfully twice, and every connection that was
handed out before a `Close` is closed. -/
theorem peers_cached (insecure : O) (dial : ℕ → Option GoString) {labels : List (Label (Op O))}
    {st : State (Op O) (Peers O) Result}
    (h : run (step (code insecure dial)) (State.initial (Peers.new O)) labels = some st) :
    ∃ log, st.left.map st.outcome = log.map some ∧
      (∀ k k' addr addr' conn conn',
        st.outcome k = some (.getPeerClient addr, .client (.ok conn)) →
        st.outcome k' = some (.getPeerClient addr', .client (.ok conn')) →
        (conn = conn' ↔ addr = addr')) ∧
      ((∀ k op rest, ¬ st.Inside k op .write rest) →
        (st.shared.dialed.map Prod.fst).Nodup ∧
        ∀ before after order r, log = before ++ (.close order, r) :: after →
          ∀ addr conn, (.getPeerClient addr, .client (.ok conn)) ∈ before →
            conn ∈ st.shared.closed) := by
  have hatomic : ∃ log, Atomic (Op.apply insecure dial) id (id (Peers.new O)) st log := by
    refine atomic_of_sections readOnly_code (keeps_true _) (fun op p p' r _ halone => ?_) trivial h
    rw [← alone_code]
    exact halone
  obtain ⟨log, hlog⟩ := hatomic
  have hall : ∃ rest, log = log ++ rest := ⟨[], (List.append_nil log).symm⟩
  have hcached := cached_final insecure dial log
  refine ⟨log, hlog.order, fun k k' addr addr' conn conn' hk hk' => ?_, fun hquiet => ?_⟩
  · have hconn := conns_final hlog hall (hlog.mem_log hk)
    have hconn' := conns_final hlog hall (hlog.mem_log hk')
    constructor
    · rintro rfl
      rw [hcached] at hconn hconn'
      rw [hconn, Option.some.injEq] at hconn'
      exact hconn'
    · rintro rfl
      rw [hconn, Option.some.injEq] at hconn'
      exact hconn'
  · have hshared : final insecure dial log = st.shared := hlog.final hquiet
    rw [← hshared]
    refine ⟨hcached.nodup, fun before after order r hsplit addr conn hmem => ?_⟩
    rw [hsplit]
    exact closed_final (conns_final hlog ⟨_, hsplit⟩ hmem) order r

/-- Two requests for one peer; the dial of the first fails. -/
theorem peers_cached_retry :
    ∃ st, run (step (code () fun n => if n = 0 then some (str "refused") else none))
        (State.initial (Peers.new Unit))
        [.invoke (.getPeerClient (str "b:1")), .invoke (.getPeerClient (str "b:1")), .lock 0,
          .exec 0, .exec 0, .exec 0, .unlock 0, .lock 1, .exec 1, .exec 1, .exec 1, .exec 1,
          .unlock 1, .ret 1] = some st ∧
      ∀ k k' addr addr' conn conn',
        st.outcome k = some (.getPeerClient addr, .client (.ok conn)) →
        st.outcome k' = some (.getPeerClient addr', .client (.ok conn')) →
        (conn = conn' ↔ addr = addr') := by
  refine (exists_congr fun st => and_iff_left_of_imp fun h => ?_).mpr ⟨_, rfl⟩
  obtain ⟨log, -, hsame, -⟩ := peers_cached _ _ h
  exact hsame

end Conns
end CardinalityTracker
