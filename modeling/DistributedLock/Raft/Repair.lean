import DistributedLock.Raft.LogMatching

/-! One leader's log and one follower. Requests built from any snapshots of the
leader's log may arrive in any order and any number of times: what the follower
shares with that log only grows. And the retry loop of `ReplicateToFollower` moves
down by the follower's conflict hints until the logs meet, then repairs the rest. -/

namespace DistributedLock.Raft

open Library

variable {ι F : Type*}

/-! ### A follower's log against the leader's -/

/-- Two logs that start with the sentinel and match. -/
structure Comparable [Zero F] (log final : List (LogEntry F)) : Prop where
  sentinel : log[0]? = some .sentinel
  sentinel' : final[0]? = some .sentinel
  matching : Matches LogEntry.term log final

/-- The log holds the entries of `final` at every index up to `m`. -/
def AgreeUpTo (log final : List (LogEntry F)) (m : ℕ) : Prop :=
  m < final.length ∧ final.take (m + 1) <+: log

theorem Comparable.of_isPrefix [Zero F] {log l final : List (LogEntry F)} (h : Comparable log final)
    (hl : l <+: final) (hpos : 0 < l.length) : Comparable log l := by
  refine ⟨h.sentinel, ?_, h.matching.trans_isPrefix hl⟩
  have h0 := hl.getElem hpos
  rw [List.getElem?_eq_getElem hpos, h0, ← List.getElem?_eq_getElem, h.sentinel']

section AgreeUpTo

variable {log log' final : List (LogEntry F)} {m k : ℕ}

theorem AgreeUpTo.mono (h : AgreeUpTo log final m) (hk : k ≤ m) : AgreeUpTo log final k :=
  ⟨by have := h.1; omega, (List.take_prefix_take_left (by omega)).trans h.2⟩

theorem AgreeUpTo.lt_length (h : AgreeUpTo log final m) : m < log.length := by
  have hlen := h.2.length_le
  rw [List.length_take] at hlen
  have := h.1
  omega

/-- A log that holds a prefix of `final` agrees with it to the end of that prefix. -/
theorem AgreeUpTo.of_isPrefix {l : List (LogEntry F)} (hl : l <+: final) (hlog : l <+: log)
    (hm : m < l.length) : AgreeUpTo log final m := by
  refine ⟨hm.trans_le hl.length_le, ?_⟩
  rw [take_eq_of_isPrefix hl hm]
  exact (List.take_prefix _ _).trans hlog

end AgreeUpTo

/-- The logs of two nodes of a cluster are comparable. -/
theorem Cluster.comparable [Fintype ι] [DecidableEq ι] [Zero F] (c : ClusterConfig ι)
    {as : List (Action ι F)} {s : Cluster ι F} (h : (system c).exec as = some s) (i j : ι) :
    Comparable (s.node i).log (s.node j).log := by
  obtain ⟨g, -, hinv⟩ := exists_logInv c h
  exact ⟨(hinv.node i).sentinel, (hinv.node j).sentinel,
    (hinv.node i).coherent.take_eq (hinv.node j).coherent⟩

/-- Node 2 leads term 2 and has one entry in common with node 1, which led term 1;
node 3 has none. -/
def divergedRun : List (Action (Fin 3) ℕ) :=
  [.startElection 0, .sendVoteRequest 0, .handleRequestVote 0, .receiveVote 0, .finishElection 0,
    .appendLocalEntry 0 (.acquire "a" [1] 1), .replicate 0 1, .handleAppendEntries 0,
    .appendLocalEntry 0 (.acquire "b" [1] 1), .startElection 1, .sendVoteRequest 1,
    .voteRequestFailed 1, .sendVoteRequest 1, .handleRequestVote 2, .receiveVote 1,
    .appendLocalEntry 1 (.acquire "c" [1] 1)]

namespace RaftNode

section Request

variable {log l final : List (LogEntry F)} {r : AppendRequest F} {m : ℕ}

/-- The request covers the log `l` from some index on. -/
structure Covers (r : AppendRequest F) (l : List (LogEntry F)) : Prop where
  lt : r.prevLogIndex < l.length
  prevTerm : termAt l r.prevLogIndex = some r.prevLogTerm
  entries : r.entries = l.drop (r.prevLogIndex + 1)

theorem Covers.length_eq (h : Covers r l) : r.prevLogIndex + r.entries.length + 1 = l.length := by
  rw [h.entries, List.length_drop]
  have := h.lt
  omega

section Build

variable [DecidableEq ι] {cfg : NodeConfig ι} {peer : ι} {n leader : RaftNode ι F}

theorem covers_of_build {f : ι → ℕ} {n' : RaftNode ι F}
    (h : buildAppendRequest cfg { n with nextIndex := f } peer = some (n', r)) :
    Covers r n.log ∧ r.leaderCommit = n.commitIndex := by
  obtain ⟨k, t, ht, -, rfl⟩ := buildAppendRequest_cases _ h
  obtain ⟨e, he, -⟩ := Option.map_eq_some_iff.mp ht
  exact ⟨⟨(List.getElem?_eq_some_iff.mp he).1, ht, rfl⟩, rfl⟩

variable (cfg) in
/-- A next index within the log is sent as it stands. -/
theorem exists_build (h1 : 1 ≤ leader.nextIndex peer)
    (hlen : leader.nextIndex peer ≤ leader.log.length) :
    ∃ r, leader.buildAppendRequest cfg peer = some (leader, r) ∧ Covers r leader.log ∧
      r.term = leader.currentTerm ∧ r.prevLogIndex + 1 = leader.nextIndex peer := by
  have hmax : max 1 (leader.nextIndex peer) = leader.nextIndex peer := max_eq_right h1
  have hlt : leader.nextIndex peer - 1 < leader.log.length := by omega
  have ht : termAt leader.log (leader.nextIndex peer - 1) =
      some leader.log[leader.nextIndex peer - 1].term := by
    rw [termAt, List.getElem?_eq_getElem hlt, Option.map_some]
  have hprev : leader.nextIndex peer - 1 + 1 = leader.nextIndex peer := by omega
  have hbuild : leader.buildAppendRequest cfg peer = some (leader,
      { term := leader.currentTerm, leaderId := cfg.nodeId,
        leaderServiceAddress := cfg.serviceAddress,
        prevLogIndex := leader.nextIndex peer - 1,
        prevLogTerm := leader.log[leader.nextIndex peer - 1].term,
        entries := leader.log.drop (leader.nextIndex peer),
        leaderCommit := leader.commitIndex }) := by
    simp only [buildAppendRequest, hmax, ht, Option.map_some, Function.update_eq_self]
  refine ⟨_, hbuild, ⟨hlt, ht, ?_⟩, rfl, hprev⟩
  rw [hprev]

end Build

variable [Zero F]

/-- A request of the leader that passes the check leaves the log alone, when it
holds all that was sent, or makes it the leader's. -/
theorem Covers.appendLoop_cases (h : Covers r l) (hc : Comparable log l)
    (hm : prevLogMatches log r = true) :
    (appendLoop log (r.prevLogIndex + 1) r.entries = log ∧ l <+: log) ∨
      (appendLoop log (r.prevLogIndex + 1) r.entries = l ∧ ∃ m, m < l.length ∧
        log.take m = l.take m ∧
        (m = log.length ∨ ∃ a b, log[m]? = some a ∧ l[m]? = some b ∧ a ≠ b)) := by
  have hlen : (l.take (r.prevLogIndex + 1)).length = r.prevLogIndex + 1 := by
    rw [List.length_take, min_eq_left h.lt]
  have hterm : termAt (l.take (r.prevLogIndex + 1)) r.prevLogIndex = some r.prevLogTerm := by
    rw [termAt, List.getElem?_take_of_lt (Nat.lt_succ_self _)]
    exact h.prevTerm
  have hhead : log[0]? = (l.take (r.prevLogIndex + 1))[0]? := by
    rw [List.getElem?_take_of_lt (Nat.succ_pos _), hc.sentinel, hc.sentinel']
  have hpre := prefix_of_matches hhead (hc.matching.trans_isPrefix (List.take_prefix _ _))
    hlen hterm hm
  have hjoin : l.take (r.prevLogIndex + 1) ++ r.entries = l := by
    rw [h.entries, List.take_append_drop]
  have hstamp : ∀ (k : ℕ) e e', log[k]? = some e →
      (l.take (r.prevLogIndex + 1) ++ r.entries)[k]? = some e' → e.term = e'.term → e = e' := by
    rw [hjoin]
    exact fun k e e' he he' ht => hc.matching.eq_of_stamp_eq he he' ht
  have hcases := RaftNode.appendLoop_cases hpre hstamp
  rwa [hjoin, hlen] at hcases

end Request

/-! ### Requests in any order -/

section Deliver

variable [DecidableEq ι] {ns : List (RaftNode ι F)} {n m : RaftNode ι F} {r : AppendRequest F}
  {final : List (LogEntry F)} {T : ℕ}

/-- Snapshots of the leader of term `T`, whose log only grows, up to `final`. -/
structure Snapshots (T : ℕ) (ns : List (RaftNode ι F)) (final : List (LogEntry F)) : Prop where
  term : ∀ n ∈ ns, n.currentTerm = T
  log : ∀ n ∈ ns, n.log <+: final
  commit : ∀ n ∈ ns, n.commitIndex < n.log.length

/-- The request is built from one of the snapshots, with some next index. -/
def Built (cfg : NodeConfig ι) (ns : List (RaftNode ι F)) (r : AppendRequest F) : Prop :=
  ∃ n ∈ ns, ∃ f peer n', buildAppendRequest cfg { n with nextIndex := f } peer = some (n', r)

/-- A follower whose committed entries are the leader's. -/
structure Follows [Zero F] (n : RaftNode ι F) (final : List (LogEntry F)) : Prop where
  log : Comparable n.log final
  commit : AgreeUpTo n.log final n.commitIndex

/-- What a request does to a follower. -/
structure Tolerates (n : RaftNode ι F) (r : AppendRequest F) (final : List (LogEntry F)) :
    Prop where
  keeps : ∀ m, AgreeUpTo n.log final m → AgreeUpTo (n.handleAppendEntries r).1.log final m
  covers : (n.handleAppendEntries r).2.success = true →
    AgreeUpTo (n.handleAppendEntries r).1.log final (r.prevLogIndex + r.entries.length)
  rejected : (n.handleAppendEntries r).2.success = false →
    (n.handleAppendEntries r).1.log = n.log ∧
      (n.handleAppendEntries r).1.commitIndex = n.commitIndex
  monotone : n.commitIndex ≤ (n.handleAppendEntries r).1.commitIndex
  commit : AgreeUpTo (n.handleAppendEntries r).1.log final (n.handleAppendEntries r).1.commitIndex

variable [Zero F]

omit [DecidableEq ι] in
/-- An accepted request leaves the log alone, or makes it the leader's; either way
what was shared stays shared. -/
theorem Covers.accepted {l : List (LogEntry F)} (h : Covers r l) (hl : l <+: final)
    (hc : Comparable n.log final) (ha : n.Accepts r) :
    Comparable (n.handleAppendEntries r).1.log final ∧ l <+: (n.handleAppendEntries r).1.log ∧
      ∀ m, AgreeUpTo n.log final m → AgreeUpTo (n.handleAppendEntries r).1.log final m := by
  have hpos : 0 < l.length := by have := h.lt; omega
  obtain ⟨hlog, -⟩ := n.handleAppendEntries_accepts ha
  rw [hlog]
  rcases h.appendLoop_cases (hc.of_isPrefix hl hpos) ha.2 with
    ⟨he, hheld⟩ | ⟨he, i, -, htake, hend⟩ <;> rw [he]
  · exact ⟨hc, hheld, fun _ h => h⟩
  · refine ⟨⟨?_, hc.sentinel', .of_isPrefix hl⟩, List.prefix_refl l, fun m hm => ⟨hm.1, ?_⟩⟩
    · exact (hc.of_isPrefix hl hpos).sentinel'
    · -- the log is cut at the first difference, above all that was shared
      rcases prefix_or_disagree hm.2 htake hend with hp | hd
      · exact hp
      · exact absurd (hd.mono hl) (not_disagree_of_isPrefix (List.take_prefix _ _))

/-- One request of the leader. -/
theorem Follows.handleAppendEntries {cfg : NodeConfig ι} (h : n.Follows final)
    (hs : Snapshots T ns final) (hr : Built cfg ns r) :
    (n.handleAppendEntries r).1.Follows final ∧ n.Tolerates r final := by
  obtain ⟨m, hm, f, peer, m', hbuild⟩ := hr
  obtain ⟨hcov, hcommit⟩ := covers_of_build hbuild
  by_cases ha : n.Accepts r
  · obtain ⟨hc, hheld, hkeep⟩ := hcov.accepted (hs.log m hm) h.log ha
    obtain ⟨hlog, hresp, hidx⟩ := n.handleAppendEntries_accepts ha
    have hend : AgreeUpTo (n.handleAppendEntries r).1.log final
        (r.prevLogIndex + r.entries.length) :=
      .of_isPrefix (hs.log m hm) hheld (by have := hcov.length_eq; omega)
    have hold := hkeep _ h.commit
    have hlt : r.leaderCommit < m.log.length := hcommit ▸ hs.commit m hm
    have hlast := hcov.length_eq
    rw [← hlog] at hidx
    have hnew : n.commitIndex ≤ (n.handleAppendEntries r).1.commitIndex ∧
        AgreeUpTo (n.handleAppendEntries r).1.log final
          (n.handleAppendEntries r).1.commitIndex := by
      have hbelow := hold.lt_length
      rw [hidx]
      split_ifs with hless
      · -- the leader's commit index is below the last entry it sent
        exact ⟨by omega, hend.mono (by omega)⟩
      · exact ⟨le_rfl, hold⟩
    refine ⟨⟨hc, hnew.2⟩, hkeep, fun _ => hend, fun hno => ?_, hnew.1, hnew.2⟩
    rw [hresp] at hno
    cases hno
  · obtain ⟨hlog, hno, hidx⟩ := n.handleAppendEntries_rejects ha
    have hsame : AgreeUpTo (n.handleAppendEntries r).1.log final
        (n.handleAppendEntries r).1.commitIndex := by
      rw [hlog, hidx]
      exact h.commit
    refine ⟨⟨by rw [hlog]; exact h.log, hsame⟩, fun m hm => by rwa [hlog], fun hyes => ?_,
      fun _ => ⟨hlog, hidx⟩, hidx.ge, hsame⟩
    rw [hno] at hyes
    cases hyes

/-- The follower after requests in the order in which they arrive. -/
def deliver (n : RaftNode ι F) (rs : List (AppendRequest F)) : RaftNode ι F :=
  rs.foldl (fun n r => (n.handleAppendEntries r).1) n

theorem Follows.deliver {cfg : NodeConfig ι} (h : n.Follows final) (hs : Snapshots T ns final)
    {rs : List (AppendRequest F)} (hrs : ∀ r ∈ rs, Built cfg ns r) :
    (n.deliver rs).Follows final := by
  induction rs generalizing n with
  | nil => exact h
  | cons r rs ih =>
    obtain ⟨hr, hrs⟩ := List.forall_mem_cons.mp hrs
    exact ih (h.handleAppendEntries hs hr).1 hrs

/-- Whatever requests of one leader arrive, in whatever order and however often, each
one is tolerated. -/
theorem deliver_tolerates (cfg : NodeConfig ι) (T : ℕ) (ns : List (RaftNode ι F))
    (final : List (LogEntry F)) (follower : RaftNode ι F) (hs : Snapshots T ns final)
    (hf : follower.Follows final) (rs : List (AppendRequest F))
    (hrs : ∀ r ∈ rs, Built cfg ns r) (before after : List (AppendRequest F))
    (r : AppendRequest F) (hsplit : rs = before ++ r :: after) :
    (follower.deliver before).Tolerates r final := by
  subst hsplit
  have hbefore : ∀ r' ∈ before, Built cfg ns r' := fun r' hr' =>
    hrs r' (List.mem_append_left _ hr')
  exact ((hf.deliver hs hbefore).handleAppendEntries hs (hrs r (by simp))).2

/-- A request of one entry reaches node 1 after one of two entries. -/
theorem deliver_tolerates_late :
    ∃ (s : Cluster (Fin 3) ℕ) (long short : AppendRequest ℕ),
      (Cluster.system .testNodes).exec divergedRun = some s ∧ long.entries.length = 2 ∧
      short.entries.length = 1 ∧ ((s.node 0).deliver [long]).Tolerates short (s.node 1).log := by
  obtain ⟨s, hs, hlen, hcommit, hagree⟩ := System.exists_exec (Cluster.system .testNodes)
    divergedRun (fun s => (s.node 1).log.length = 3 ∧ (s.node 1).commitIndex = 0 ∧
      (s.node 0).commitIndex < (s.node 1).log.length ∧
      (s.node 1).log.take ((s.node 0).commitIndex + 1) <+: (s.node 0).log) (by decide +kernel)
  let late : RaftNode (Fin 3) ℕ := { s.node 1 with nextIndex := fun _ => 1 }
  let early : RaftNode (Fin 3) ℕ := { late with log := (s.node 1).log.take 2 }
  have hlate : late.log.length = 3 := hlen
  have hearly : early.log.length = 2 := by
    rw [List.length_take, hlen]
    rfl
  obtain ⟨long, hlong, hlongc, -, hlongp⟩ := exists_build (ClusterConfig.testNodes.node 1)
    (show 1 ≤ late.nextIndex 0 from le_rfl) (show 1 ≤ late.log.length by omega)
  obtain ⟨short, hshort, hshortc, -, hshortp⟩ := exists_build (ClusterConfig.testNodes.node 1)
    (show 1 ≤ early.nextIndex 0 from le_rfl) (show 1 ≤ early.log.length by omega)
  have hsnap : Snapshots (s.node 1).currentTerm [early, late] (s.node 1).log := by
    refine ⟨?_, ?_, ?_⟩ <;> simp only [List.forall_mem_cons, List.not_mem_nil, false_imp_iff,
      implies_true, and_true]
    · exact ⟨rfl, rfl⟩
    · exact ⟨List.take_prefix _ _, List.prefix_refl _⟩
    · have hzero : early.commitIndex = 0 := hcommit
      have hzero' : late.commitIndex = 0 := hcommit
      omega
  have hbuilt : ∀ r ∈ [long, short], Built (ClusterConfig.testNodes.node 1) [early, late] r := by
    simp only [List.forall_mem_cons, List.not_mem_nil, false_imp_iff, implies_true, and_true]
    exact ⟨⟨late, by simp, late.nextIndex, 0, late, hlong⟩,
      ⟨early, by simp, early.nextIndex, 0, early, hshort⟩⟩
  refine ⟨s, long, short, hs, ?_, ?_, deliver_tolerates (ClusterConfig.testNodes.node 1) _
    [early, late] _ _ hsnap ⟨Cluster.comparable .testNodes hs 0 1, hagree⟩ [long, short] hbuilt
    [long] [] short rfl⟩
  · have hcov : _ = (s.node 1).log.length := hlongc.length_eq
    have hprev : long.prevLogIndex + 1 = 1 := hlongp
    omega
  · have hcov := hshortc.length_eq
    have hprev : short.prevLogIndex + 1 = 1 := hshortp
    omega

end Deliver

/-! ### The retry loop -/

section Retry

/-- The scan stops between 1 and where it starts. -/
theorem conflictIndex_mem (log : List (LogEntry F)) (t : ℕ) {p : ℕ} (hp : 0 < p) :
    1 ≤ conflictIndex log t p ∧ conflictIndex log t p ≤ p := by
  induction p with
  | zero => omega
  | succ p ih =>
    unfold conflictIndex
    split_ifs with h
    · have := ih h.1
      omega
    · omega

/-- A hint of a follower lies between 1 and the index that was checked. -/
theorem rejectAppend_mem {n : RaftNode ι F} {p : ℕ} (hp : 0 < p) (hlog : 0 < n.log.length) :
    1 ≤ (n.rejectAppend p).conflictIndex ∧ (n.rejectAppend p).conflictIndex ≤ p := by
  unfold rejectAppend
  cases ht : termAt n.log p with
  | some t => exact conflictIndex_mem n.log t hp
  | none =>
    have hlen : n.log.length ≤ p := by
      by_contra hlt
      rw [termAt, List.getElem?_eq_getElem (by omega)] at ht
      cases ht
    exact ⟨hlog, hlen⟩

theorem handleAppendEntries_conflict {n : RaftNode ι F} {r : AppendRequest F}
    (hterm : n.currentTerm ≤ r.term) (hm : prevLogMatches n.log r ≠ true)
    (hlog : 0 < n.log.length) :
    (n.handleAppendEntries r).1.currentTerm = r.term ∧
      (n.handleAppendEntries r).2.term = r.term ∧ (n.handleAppendEntries r).2.matchIndex = 0 ∧
      1 ≤ (n.handleAppendEntries r).2.conflictIndex ∧
      (n.handleAppendEntries r).2.conflictIndex ≤ r.prevLogIndex := by
  obtain ⟨hkeep, -⟩ := n.acceptLeader_frame r
  have ht := n.acceptLeader_term hterm
  have hpos : 0 < r.prevLogIndex := by
    rw [Nat.pos_iff_ne_zero]
    intro h0
    exact hm (by simp [prevLogMatches, h0])
  have heq : n.handleAppendEntries r =
      (n.acceptLeader r, (n.acceptLeader r).rejectAppend r.prevLogIndex) := by
    unfold handleAppendEntries
    rw [if_neg (by omega)]
    dsimp only
    rw [hkeep, if_neg hm]
  rw [heq]
  refine ⟨ht, ?_, ?_, rejectAppend_mem hpos (by rwa [hkeep])⟩ <;> unfold rejectAppend
  · split <;> exact ht
  · split <;> rfl

/-- A request and the answer to it. -/
abbrev Exchange (F : Type*) := AppendRequest F × AppendResponse

/-- How `ReplicateToFollower` ends: both nodes, what was sent and answered, and the
value returned. -/
structure Replication (ι F : Type*) where
  leader : RaftNode ι F
  follower : RaftNode ι F
  exchanges : List (Exchange F)
  result : Bool

variable [DecidableEq ι] {cfg : NodeConfig ι} {peer : ι} {leader follower : RaftNode ι F}

/-- `ReplicateToFollower` on running nodes that nobody else touches, when every RPC
succeeds; `none` when the fuel runs out or `log_` is read out of range. -/
def replicateToFollower (cfg : NodeConfig ι) (peer : ι) :
    ℕ → RaftNode ι F → RaftNode ι F → Option (Replication ι F)
  | 0, _, _ => none
  | fuel + 1, leader, follower =>
    if leader.state ≠ .leader then
      some { leader := leader, follower := follower, exchanges := [], result := false }
    else
      match leader.buildAppendRequest cfg peer with
      | none => none
      | some (leader, request) =>
        let response := (follower.handleAppendEntries request).2
        let follower := (follower.handleAppendEntries request).1
        let answered := leader.handleAppendResponse cfg peer request.term response
        if leader.currentTerm < response.term ∨ leader.state ≠ .leader ∨
            leader.currentTerm ≠ request.term then
          some { leader := answered, follower := follower,
                 exchanges := [(request, response)], result := false }
        else if response.success then
          some { leader := answered, follower := follower,
                 exchanges := [(request, response)], result := true }
        else
          (replicateToFollower cfg peer fuel answered follower).map fun run =>
            { run with exchanges := (request, response) :: run.exchanges }

/-- The follower rejects `x` with a hint below what it checked, and `y` starts there. -/
def Retries (x y : Exchange F) : Prop :=
  x.2.success = false ∧ 1 ≤ x.2.conflictIndex ∧ x.2.conflictIndex ≤ x.1.prevLogIndex ∧
    y.1.prevLogIndex + 1 = x.2.conflictIndex

/-- The loop has repaired the follower's log. -/
structure Repairs (leader : RaftNode ι F) (peer : ι) (run : Replication ι F) : Prop where
  result : run.result = true
  requests : run.exchanges.length ≤ leader.nextIndex peer
  first : run.exchanges.head?.map (fun x => x.1.prevLogIndex + 1) = some (leader.nextIndex peer)
  retries : run.exchanges.IsChain Retries
  last : run.exchanges.getLast?.map (fun x => x.2.success) = some true
  kept : run.leader.log = leader.log
  repaired : leader.log <+: run.follower.log

/-- After a rejection the leader goes to the follower's hint. -/
theorem handleAppendResponse_retry {r : AppendResponse} (hs : leader.state = .leader)
    (hterm : r.term = leader.currentTerm) (hno : r.success = false) (hpos : 1 ≤ r.conflictIndex) :
    leader.handleAppendResponse cfg peer leader.currentTerm r =
      { leader with nextIndex := Function.update leader.nextIndex peer r.conflictIndex } := by
  unfold handleAppendResponse
  rw [if_neg (by omega), if_neg (by simp [hs]), if_neg (by simp [hno])]
  dsimp only
  rw [if_pos (Nat.lt_of_succ_le hpos), max_eq_right hpos]

omit [DecidableEq ι] in
/-- One rejection before a run of the loop. -/
theorem Repairs.cons {answered : RaftNode ι F} {run : Replication ι F} {x : Exchange F}
    (h : Repairs answered peer run) (hlog : answered.log = leader.log)
    (hprev : x.1.prevLogIndex + 1 = leader.nextIndex peer) (hno : x.2.success = false)
    (hpos : 1 ≤ x.2.conflictIndex) (hle : x.2.conflictIndex ≤ x.1.prevLogIndex)
    (hnext : answered.nextIndex peer = x.2.conflictIndex) :
    Repairs leader peer { run with exchanges := x :: run.exchanges } := by
  have hlen := h.requests
  cases hrun : run.exchanges with
  | nil =>
    have := h.first
    rw [hrun] at this
    cases this
  | cons y ys =>
    have hfirst := h.first
    have hchain := h.retries
    have hlast := h.last
    rw [hrun] at hfirst hchain hlast hlen
    simp only [List.head?_cons, Option.map_some, Option.some.injEq, hnext] at hfirst
    refine ⟨h.result, ?_, by simp [hprev], ?_, ?_, h.kept.trans hlog, hlog ▸ h.repaired⟩
    · simp only [List.length_cons] at hlen ⊢
      omega
    · exact .cons_cons ⟨hno, hpos, hle, hfirst⟩ hchain
    · rwa [List.getLast?_cons_cons]

variable [Zero F]

/-- From a next index within its log, a leader repairs any log that matches its own,
with at most as many requests as that next index. -/
theorem replicateToFollower_repairs (cfg : NodeConfig ι) (peer : ι)
    (leader follower : RaftNode ι F) (hs : leader.state = .leader)
    (hterm : follower.currentTerm ≤ leader.currentTerm)
    (hlog : Comparable follower.log leader.log) (h1 : 1 ≤ leader.nextIndex peer)
    (hlen : leader.nextIndex peer ≤ leader.log.length) (fuel : ℕ)
    (hfuel : leader.nextIndex peer ≤ fuel) :
    ∃ run, replicateToFollower cfg peer fuel leader follower = some run ∧
      Repairs leader peer run := by
  induction fuel generalizing leader follower with
  | zero => omega
  | succ fuel ih =>
    obtain ⟨r, hbuild, hcov, hrt, hprev⟩ := exists_build cfg h1 hlen
    have hpos := (List.getElem?_eq_some_iff.mp hlog.sentinel).1
    unfold replicateToFollower
    rw [if_neg (by simp [hs]), hbuild]
    dsimp only
    by_cases ha : follower.Accepts r
    · obtain ⟨-, hresp, -⟩ := follower.handleAppendEntries_accepts ha
      obtain ⟨-, hheld, -⟩ := hcov.accepted (List.prefix_refl _) hlog ha
      rw [hresp, if_neg (by simp [hs, hrt]), if_pos rfl]
      refine ⟨_, rfl, ⟨rfl, h1, ?_, ?_, rfl, ?_, hheld⟩⟩
      · simp [hprev]
      · exact .singleton _
      · exact (leader.handleAppendResponse_log cfg peer r.term _).1
    · have hm : prevLogMatches follower.log r ≠ true := fun hm => ha ⟨by omega, hm⟩
      obtain ⟨hkeep, hno, -⟩ := follower.handleAppendEntries_rejects ha
      obtain ⟨hterm', hrespt, -, hlow, hhigh⟩ :=
        handleAppendEntries_conflict (by omega) hm hpos
      rw [hrt] at hterm' hrespt
      rw [if_neg (by simp [hs, hrt, hrespt]), hno, if_neg (by simp), hrt,
        handleAppendResponse_retry hs hrespt hno hlow]
      -- the next request starts at the hint, below this one
      set hint := (follower.handleAppendEntries r).2.conflictIndex
      set answered : RaftNode ι F :=
        { leader with nextIndex := Function.update leader.nextIndex peer hint } with hanswered
      have hnext : answered.nextIndex peer = hint := by simp [hanswered]
      have hshort : hint ≤ leader.log.length := by omega
      obtain ⟨run, hrun, hrepairs⟩ := ih answered (follower.handleAppendEntries r).1 hs
        hterm'.le (by rwa [hkeep]) (by omega) (hnext.trans_le hshort) (by omega)
      rw [hrun]
      exact ⟨_, rfl, hrepairs.cons rfl hprev hno hlow hhigh hnext⟩

/-- Node 3 has nothing of what node 2 sends it first. -/
theorem replicateToFollower_repairs_empty :
    ∃ (s : Cluster (Fin 3) ℕ) (run : Replication (Fin 3) ℕ),
      (Cluster.system .testNodes).exec divergedRun = some s ∧ (s.node 2).log.length = 1 ∧
      replicateToFollower (ClusterConfig.testNodes.node 1) 2 2 (s.node 1) (s.node 2) = some run ∧
      Repairs (s.node 1) 2 run := by
  obtain ⟨s, hs, hlen, hstate, hterm, hnext, hlog⟩ := System.exists_exec
    (Cluster.system .testNodes) divergedRun (fun s => (s.node 2).log.length = 1 ∧
      (s.node 1).state = .leader ∧ (s.node 2).currentTerm ≤ (s.node 1).currentTerm ∧
      (s.node 1).nextIndex 2 = 2 ∧ (s.node 1).log.length = 3) (by decide +kernel)
  obtain ⟨run, hrun, hrepairs⟩ := replicateToFollower_repairs (ClusterConfig.testNodes.node 1) 2
    (s.node 1) (s.node 2) hstate hterm (Cluster.comparable .testNodes hs 2 1) (by omega) (by omega)
    2 hnext.le
  exact ⟨s, run, hs, hlen, hrun, hrepairs⟩

end Retry

end RaftNode

end DistributedLock.Raft
