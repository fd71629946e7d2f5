import DistributedLock.Library.Lists
import DistributedLock.Library.Quorum
import DistributedLock.Raft.History

/-! Election safety. A node can forget its vote inside a term, because stepping
down clears `voted_for_` also when the term stays. A vote that can still count is
bound all the same: a vote granted to another node binds its giver as a follower
until the term ends, and a node whose own vote counts is a candidate or a leader
and has granted no vote in that term. -/

namespace DistributedLock.Raft

open Library

variable {ι F : Type*}

/-- `j` has answered a vote request of `k` for term `U` with a granted vote. -/
def Granted (calls : List (VoteCall ι)) (U : ℕ) (j k : ι) : Prop :=
  ∃ call ∈ calls, call.callee = j ∧ call.caller = k ∧ call.request.term = U ∧
    ∃ r, call.response = some r ∧ r.voteGranted = true

/-! ### The role of one node -/

/-- `lo` is the leader elected in each term. -/
structure RoleOk (c : ClusterConfig ι) (lo : ℕ → Option ι) (i : ι) (n : RaftNode ι F) : Prop where
  voted : n.state ≠ .follower → n.votedFor = c.nodeId i
  leads : n.state = .leader → lo n.currentTerm = some i
  stays : ∀ U, lo U = some i → U ≤ n.currentTerm ∧ (U = n.currentTerm → n.state = .leader)

/-- Terms never fall, and a follower that has voted stays bound inside its term. -/
def Keeps (c : ClusterConfig ι) (n n' : RaftNode ι F) : Prop :=
  n.currentTerm ≤ n'.currentTerm ∧
    (n'.currentTerm = n.currentTerm → ∀ k, n.votedFor = c.nodeId k → n.state = .follower →
      n'.votedFor = c.nodeId k ∧ n'.state = .follower)

variable {c : ClusterConfig ι} {lo : ℕ → Option ι} {i : ι} {n n' : RaftNode ι F}

theorem Keeps.of_eq (ht : n'.currentTerm = n.currentTerm) (hv : n'.votedFor = n.votedFor)
    (hs : n'.state = n.state) : Keeps c n n' :=
  ⟨ht.ge, fun _ _ hk hf => ⟨hv.trans hk, hs.trans hf⟩⟩

theorem Keeps.of_lt (h : n.currentTerm < n'.currentTerm) : Keeps c n n' :=
  ⟨h.le, fun he => absurd he h.ne'⟩

theorem RoleOk.of_eq (h : RoleOk c lo i n) (ht : n'.currentTerm = n.currentTerm)
    (hv : n'.votedFor = n.votedFor) (hs : n'.state = n.state) : RoleOk c lo i n' := by
  refine ⟨?_, ?_, ?_⟩
  · rw [hs, hv]; exact h.voted
  · rw [hs, ht]; exact h.leads
  · rw [hs, ht]; exact h.stays

/-- A follower in a term its node was not elected in. -/
theorem RoleOk.follower (h : RoleOk c lo i n) (hs : n'.state = .follower)
    (hlt : n.currentTerm ≤ n'.currentTerm) (hlo : lo n'.currentTerm ≠ some i) :
    RoleOk c lo i n' := by
  refine ⟨fun hf => absurd hs hf, fun hl => absurd (hs.symm.trans hl) (by simp), fun U hU => ?_⟩
  refine ⟨(h.stays U hU).1.trans hlt, ?_⟩
  rintro rfl
  exact absurd hU hlo

theorem RoleOk.not_elected (h : RoleOk c lo i n) {U : ℕ} (hU : n.currentTerm < U) :
    lo U ≠ some i := fun hlo => by
  have := (h.stays U hlo).1
  omega

theorem RoleOk.handleRequestVote (h : RoleOk c lo i n) (r : VoteRequest) :
    RoleOk c lo i (n.handleRequestVote r).1 := by
  rcases n.handleRequestVote_role r with ⟨hlt, ht, hs⟩ | ⟨-, ht, hs, hv⟩
  · exact h.follower hs (by omega) (ht ▸ h.not_elected hlt)
  · refine ⟨?_, by rw [hs, ht]; exact h.leads, by rw [hs, ht]; exact h.stays⟩
    intro hf
    rw [hs] at hf
    rcases hv with hv | hv
    · exact hv.trans (h.voted hf)
    · exact absurd ((h.voted hf).symm.trans hv) (c.nodeId_ne_empty i)

theorem Keeps.handleRequestVote (r : VoteRequest) : Keeps c n (n.handleRequestVote r).1 := by
  rcases n.handleRequestVote_role r with ⟨hlt, ht, -⟩ | ⟨-, ht, hs, hv⟩
  · exact .of_lt (by omega)
  · refine ⟨ht.ge, fun _ k hk hf => ⟨?_, hs ▸ hf⟩⟩
    rcases hv with hv | hv
    · exact hv.trans hk
    · exact absurd (hk.symm.trans hv) (c.nodeId_ne_empty k)

/-- The request comes from the leader of its term, which is another node. -/
theorem RoleOk.handleAppendEntries (h : RoleOk c lo i n) {r : AppendRequest F}
    (hlo : lo r.term ≠ some i) : RoleOk c lo i (n.handleAppendEntries r).1 := by
  rcases n.handleAppendEntries_role r with ⟨-, he⟩ | ⟨hle, ht, hs, -⟩
  · rw [he]; exact h
  · exact h.follower hs (by omega) (ht ▸ hlo)

theorem Keeps.handleAppendEntries (r : AppendRequest F) :
    Keeps c n (n.handleAppendEntries r).1 := by
  rcases n.handleAppendEntries_role r with ⟨-, he⟩ | ⟨hle, ht, hs, hv⟩
  · rw [he]; exact .of_eq rfl rfl rfl
  · refine ⟨by omega, fun he k hk hf => ⟨?_, hs⟩⟩
    rcases hv with hv | hv | hv
    · exact hv.trans hk
    · omega
    · exact absurd hf hv

theorem RoleOk.handleAppendResponse [DecidableEq ι] (h : RoleOk c lo i n) (cfg : NodeConfig ι)
    (peer : ι) (T : ℕ) (r : AppendResponse) :
    RoleOk c lo i (n.handleAppendResponse cfg peer T r) := by
  rcases n.handleAppendResponse_role cfg peer T r with ⟨hlt, he⟩ | ⟨ht, hv, hs⟩
  · rw [he]
    have hm : max n.currentTerm r.term = r.term := max_eq_right hlt.le
    exact h.follower rfl (le_max_left _ _) (by simpa [hm] using h.not_elected hlt)
  · exact h.of_eq ht hv hs

theorem Keeps.handleAppendResponse [DecidableEq ι] (cfg : NodeConfig ι) (peer : ι) (T : ℕ)
    (r : AppendResponse) : Keeps c n (n.handleAppendResponse cfg peer T r) := by
  rcases n.handleAppendResponse_role cfg peer T r with ⟨hlt, he⟩ | ⟨ht, hv, hs⟩
  · rw [he]; exact .of_lt (by simp [hlt])
  · exact .of_eq ht hv hs

theorem RoleOk.startElection (h : RoleOk c lo i n) :
    RoleOk c lo i (n.startElection (c.node i)).1 := by
  refine ⟨fun _ => rfl, fun hl => absurd hl (by simp [RaftNode.startElection]), fun U hU => ?_⟩
  have hle := (h.stays U hU).1
  refine ⟨by simp only [RaftNode.startElection]; omega, fun he => ?_⟩
  simp only [RaftNode.startElection] at he
  omega

/-! ### Votes in flight and the election threads -/

/-- `n` is the callee. -/
structure VoteCallOk (c : ClusterConfig ι) (n : RaftNode ι F) (call : VoteCall ι) : Prop where
  candidate : call.request.candidateId = c.nodeId call.caller
  foreign : call.callee ≠ call.caller
  binds : ∀ r, call.response = some r → r.voteGranted = true →
    call.request.term ≤ n.currentTerm ∧ (call.request.term = n.currentTerm →
      n.votedFor = c.nodeId call.caller ∧ n.state = .follower)

/-- The locals of an election thread: the votes counted so far were granted by
distinct nodes, none of which is still to be asked. -/
structure ThreadOk (c : ClusterConfig ι) (calls : List (VoteCall ι)) (i : ι) (T : ℕ)
    (e : Election ι) : Prop where
  pos : 0 < e.request.term
  term_le : e.request.term ≤ T
  candidate : e.request.candidateId = c.nodeId i
  nodup : e.remaining.Nodup
  foreign : i ∉ e.remaining
  counted : ∃ G : Finset ι, G.card + 1 = e.votes ∧
    (∀ j ∈ G, Granted calls e.request.term j i ∧ j ∉ e.remaining) ∧
    ∀ k, e.waiting = some k → ∃ call, calls[k]? = some call ∧ call.caller = i ∧
      call.request = e.request ∧ call.callee ∉ G ∧ call.callee ∉ e.remaining

/-- The list of vote calls only grows, and answers are not taken back. -/
structure CallsGrow (calls calls' : List (VoteCall ι)) : Prop where
  granted : ∀ U j k, Granted calls U j k → Granted calls' U j k
  kept : ∀ (k : ℕ) (call : VoteCall ι), calls[k]? = some call →
    ∃ call' : VoteCall ι, calls'[k]? = some call' ∧ call'.caller = call.caller ∧
      call'.callee = call.callee ∧ call'.request = call.request

theorem CallsGrow.refl (calls : List (VoteCall ι)) : CallsGrow calls calls :=
  ⟨fun _ _ _ h => h, fun _ call h => ⟨call, h, rfl, rfl, rfl⟩⟩

theorem CallsGrow.append (calls more : List (VoteCall ι)) : CallsGrow calls (calls ++ more) := by
  refine ⟨?_, ?_⟩
  · rintro U j k ⟨call, hmem, h⟩
    exact ⟨call, List.mem_append_left _ hmem, h⟩
  · intro k call h
    have hlt := (List.getElem?_eq_some_iff.mp h).1
    exact ⟨call, by rw [List.getElem?_append_left hlt, h], rfl, rfl, rfl⟩

theorem CallsGrow.answer {calls : List (VoteCall ι)} {k : ℕ} {call : VoteCall ι}
    (hk : calls[k]? = some call) (hr : call.response = none) (r : VoteResponse) :
    CallsGrow calls (calls.set k { call with response := some r }) := by
  refine ⟨?_, ?_⟩
  · rintro U j k' ⟨call', hmem, h1, h2, h3, r', h4, h5⟩
    refine ⟨call', mem_set_of_ne hmem hk ?_, h1, h2, h3, r', h4, h5⟩
    rintro rfl
    rw [hr] at h4
    cases h4
  · intro m call' hm
    rcases getElem?_set_cases (z := { call with response := some r }) hk hm with h | ⟨rfl, h⟩
    · exact ⟨call', h, rfl, rfl, rfl⟩
    · exact ⟨_, h, rfl, rfl, rfl⟩

theorem ThreadOk.mono {calls calls' : List (VoteCall ι)} {T T' : ℕ} {e : Election ι}
    (h : ThreadOk c calls i T e) (hg : CallsGrow calls calls') (hT : T ≤ T') :
    ThreadOk c calls' i T' e := by
  obtain ⟨G, hcard, hG, hw⟩ := h.counted
  refine ⟨h.pos, h.term_le.trans hT, h.candidate, h.nodup, h.foreign, G, hcard, ?_, ?_⟩
  · exact fun j hj => ⟨hg.granted _ _ _ (hG j hj).1, (hG j hj).2⟩
  · intro k hk
    obtain ⟨call, hcall, h1, h2, h3, h4⟩ := hw k hk
    obtain ⟨call', hcall', e1, e2, e3⟩ := hg.kept k call hcall
    exact ⟨call', hcall', e1.trans h1, e3.trans h2, e2 ▸ h3, e2 ▸ h4⟩

/-! ### The invariant of a cluster -/

structure ElectionInv [Fintype ι] (c : ClusterConfig ι) (s : Cluster ι F) (lo : ℕ → Option ι) :
    Prop where
  role : ∀ i, RoleOk c lo i (s.procs i).node
  vote : ∀ call ∈ s.voteCalls, VoteCallOk c (s.procs call.callee).node call
  unique : ∀ U j k k', Granted s.voteCalls U j k → Granted s.voteCalls U j k' → k = k'
  thread : ∀ i e, (s.procs i).election = some e →
    ThreadOk c s.voteCalls i (s.procs i).node.currentTerm e
  pos : ∀ U l, lo U = some l → 0 < U
  clean : ∀ U l k, lo U = some l → ¬ Granted s.voteCalls U l k
  elected : ∀ U l, lo U = some l →
    ∃ Q, Majority Q ∧ ∀ j ∈ Q, j = l ∨ Granted s.voteCalls U j l
  append : ∀ call ∈ s.appendCalls,
    lo call.request.term = some call.caller ∧ call.callee ≠ call.caller

namespace ElectionInv

variable [Fintype ι] [DecidableEq ι] {s s' : Cluster ι F}

omit [DecidableEq ι] in
theorem granted_binds (h : ElectionInv c s lo) {U : ℕ} {j k : ι}
    (hg : Granted s.voteCalls U j k) :
    j ≠ k ∧ U ≤ (s.procs j).node.currentTerm ∧ (U = (s.procs j).node.currentTerm →
      (s.procs j).node.votedFor = c.nodeId k ∧ (s.procs j).node.state = .follower) := by
  obtain ⟨call, hmem, rfl, rfl, rfl, r, hr, hv⟩ := hg
  exact ⟨(h.vote call hmem).foreign, (h.vote call hmem).binds r hr hv⟩

/-- A step of one process that leaves the vote calls alone. -/
theorem setProc (h : ElectionInv c s lo) {p : Process ι F}
    (hrole : RoleOk c lo i p.node) (hkeeps : Keeps c (s.procs i).node p.node)
    (hthread : ∀ e, p.election = some e →
      ThreadOk c s.voteCalls i p.node.currentTerm e) :
    ElectionInv c (s.setProc i p) lo where
  role := (Function.forall_update_iff s.procs fun i p => RoleOk c lo i p.node).mpr
    ⟨hrole, fun j _ => h.role j⟩
  vote call hmem := by
    have hv := h.vote call hmem
    by_cases hi : call.callee = i
    · refine ⟨hv.candidate, hv.foreign, fun r hr hg => ?_⟩
      obtain ⟨hle, hb⟩ := hv.binds r hr hg
      rw [Cluster.setProc_procs, hi, Function.update_self]
      rw [hi] at hle hb
      refine ⟨hle.trans hkeeps.1, fun he => ?_⟩
      have ht : (s.procs i).node.currentTerm = p.node.currentTerm := by
        have := hkeeps.1
        omega
      obtain ⟨hvf, hst⟩ := hb (he.trans ht.symm)
      exact hkeeps.2 ht.symm _ hvf hst
    · rw [Cluster.setProc_procs, Function.update_of_ne hi]
      exact hv
  unique := h.unique
  thread j e he := by
    by_cases hj : j = i
    · subst hj
      rw [Cluster.setProc_procs, Function.update_self] at he ⊢
      exact hthread e he
    · rw [Cluster.setProc_procs, Function.update_of_ne hj] at he ⊢
      exact h.thread j e he
  pos := h.pos
  clean := h.clean
  elected := h.elected
  append := h.append

omit [DecidableEq ι] in
/-- New vote calls, or new answers. -/
theorem setVoteCalls (h : ElectionInv c s lo) {calls : List (VoteCall ι)}
    (hg : CallsGrow s.voteCalls calls)
    (hv : ∀ call ∈ calls, VoteCallOk c (s.procs call.callee).node call)
    (hu : ∀ U j k k', Granted calls U j k → Granted calls U j k' → k = k')
    (hc : ∀ U l k, lo U = some l → ¬ Granted calls U l k) :
    ElectionInv c { s with voteCalls := calls } lo where
  role := h.role
  vote := hv
  unique := hu
  thread i e he := (h.thread i e he).mono hg le_rfl
  pos := h.pos
  clean := hc
  elected U l hl := by
    obtain ⟨Q, hQ, hall⟩ := h.elected U l hl
    exact ⟨Q, hQ, fun j hj => (hall j hj).imp_right (hg.granted U j l)⟩
  append := h.append

omit [DecidableEq ι] in
theorem setAppendCalls (h : ElectionInv c s lo) {calls : List (AppendCall ι F)}
    (hc : ∀ call ∈ calls, lo call.request.term = some call.caller ∧ call.callee ≠ call.caller) :
    ElectionInv c { s with appendCalls := calls } lo :=
  { h with append := hc }

omit [DecidableEq ι] in
theorem setProposals (h : ElectionInv c s lo) (ps : List (Proposal ι F)) :
    ElectionInv c { s with proposals := ps } lo :=
  { h with }

/-- A step of one process that touches neither its role nor its election. -/
theorem setProc_of_eq (h : ElectionInv c s lo) {p : Process ι F}
    (ht : p.node.currentTerm = (s.procs i).node.currentTerm)
    (hv : p.node.votedFor = (s.procs i).node.votedFor)
    (hs : p.node.state = (s.procs i).node.state) (he : p.election = (s.procs i).election) :
    ElectionInv c (s.setProc i p) lo := by
  refine h.setProc ((h.role i).of_eq ht hv hs) (.of_eq ht hv hs) fun e hp => ?_
  rw [ht]
  exact h.thread i e (he ▸ hp)

/-- A step of one process that leaves its election thread where it is. -/
theorem setNode (h : ElectionInv c s lo) {n : RaftNode ι F} (hrole : RoleOk c lo i n)
    (hkeeps : Keeps c (s.procs i).node n) :
    ElectionInv c (s.setProc i { s.procs i with node := n }) lo :=
  h.setProc hrole hkeeps fun e he => (h.thread i e he).mono (.refl _) hkeeps.1

/-! ### The steps of an election -/

theorem startElection (h : ElectionInv c s lo) (hstep : s.step c (.startElection i) = some s') :
    ElectionInv c s' lo := by
  obtain ⟨-, -, rfl⟩ := Cluster.startElection_cases hstep
  refine h.setProc (h.role i).startElection (.of_lt (Nat.lt_succ_self _)) fun e he => ?_
  rw [Option.some.injEq] at he
  subst he
  have hself : i ∉ c.peers i := by simp [c.mem_peers_iff]
  exact ⟨Nat.succ_pos _, le_rfl, rfl, c.peers_nodup i, hself, ∅, rfl, by simp, by simp⟩

theorem sendVoteRequest (h : ElectionInv c s lo)
    (hstep : s.step c (.sendVoteRequest i) = some s') : ElectionInv c s' lo := by
  obtain ⟨e, peer, rest, he, -, hrest, rfl⟩ := Cluster.sendVoteRequest_cases hstep
  have ht := h.thread i e he
  obtain ⟨G, hcard, hG, -⟩ := ht.counted
  have hnodup := ht.nodup
  have hforeign := ht.foreign
  rw [hrest] at hnodup hforeign hG
  rw [List.nodup_cons] at hnodup
  simp only [List.mem_cons, not_or] at hforeign hG
  have hgrow := CallsGrow.append s.voteCalls [{ caller := i, callee := peer, request := e.request }]
  have hmem : ∀ call ∈ s.voteCalls ++ [{ caller := i, callee := peer, request := e.request }],
      call ∈ s.voteCalls ∨ call = { caller := i, callee := peer, request := e.request } := by
    simp
  have hback : ∀ U j k, Granted (s.voteCalls ++
      [{ caller := i, callee := peer, request := e.request }]) U j k →
      Granted s.voteCalls U j k := by
    rintro U j k ⟨call, hcall, h1, h2, h3, r, hr, hv⟩
    rcases hmem call hcall with hold | rfl
    · exact ⟨call, hold, h1, h2, h3, r, hr, hv⟩
    · cases hr
  have hcalls := h.setVoteCalls hgrow ?_
    (fun U j k k' hk hk' => h.unique U j k k' (hback U j k hk) (hback U j k' hk'))
    (fun U l k hl hk => h.clean U l k hl (hback U l k hk))
  · refine hcalls.setProc (h.role i) (.of_eq rfl rfl rfl) fun e' he' => ?_
    rw [Option.some.injEq] at he'
    subst he'
    refine ⟨ht.pos, ht.term_le, ht.candidate, hnodup.2, hforeign.2, G, hcard, ?_, ?_⟩
    · exact fun j hj => ⟨hgrow.granted _ _ _ (hG j hj).1, (hG j hj).2.2⟩
    · intro k hk
      obtain rfl : s.voteCalls.length = k := Option.some.inj hk
      exact ⟨{ caller := i, callee := peer, request := e.request }, by simp, rfl, rfl,
        fun hp => (hG peer hp).2.1 rfl, hnodup.1⟩
  · intro call hcall
    rcases hmem call hcall with hold | rfl
    · exact h.vote call hold
    · exact ⟨ht.candidate, Ne.symm hforeign.1, fun r hr => by cases hr⟩

/-- A new grant cannot contradict an earlier one: the giver is still bound. -/
theorem handleRequestVote (h : ElectionInv c s lo) {k : ℕ}
    (hstep : s.step c (.handleRequestVote k) = some s') : ElectionInv c s' lo := by
  obtain ⟨call, hk, hnone, rfl⟩ := Cluster.handleRequestVote_cases hstep
  have hmem : call ∈ s.voteCalls := List.mem_of_getElem? hk
  have hok := h.vote call hmem
  have hold : ∀ {U j k'}, Granted s.voteCalls U j k' →
      ((s.node call.callee).handleRequestVote call.request).2.voteGranted = true →
      call.callee = j → call.request.term = U → call.caller = k' := by
    rintro U j k' hg hv rfl rfl
    obtain ⟨-, hle, hb⟩ := h.granted_binds hg
    obtain ⟨-, -, -, hcan⟩ := RaftNode.handleRequestVote_granted _ hv
    rcases hcan with hlt | ⟨ht, hcan⟩
    · exact absurd hle (not_le.mpr hlt)
    · have hvf := (hb ht.symm).1
      rcases hcan with hcan | hcan
      · exact absurd (hvf.symm.trans hcan) (c.nodeId_ne_empty k')
      · exact c.nodeId_eq_iff.mp (hok.candidate.symm.trans (hcan.symm.trans hvf))
  have hback : ∀ {U j k'}, Granted (s.voteCalls.set k { call with
        response := some ((s.node call.callee).handleRequestVote call.request).2 }) U j k' →
      Granted s.voteCalls U j k' ∨
        (((s.node call.callee).handleRequestVote call.request).2.voteGranted = true ∧
          call.callee = j ∧ call.caller = k' ∧ call.request.term = U) := by
    rintro U j k' ⟨call', hcall', h1, h2, h3, r, hr, hv⟩
    rcases List.mem_or_eq_of_mem_set hcall' with hin | rfl
    · exact Or.inl ⟨call', hin, h1, h2, h3, r, hr, hv⟩
    · simp only [Option.some.injEq] at hr
      exact Or.inr ⟨hr ▸ hv, h1, h2, h3⟩
  have hrole := (h.role call.callee).handleRequestVote call.request
  have hbound : ((s.node call.callee).handleRequestVote call.request).2.voteGranted = true →
      ((s.node call.callee).handleRequestVote call.request).1.state = .follower := by
    intro hv
    obtain ⟨-, hvf, -, -⟩ := RaftNode.handleRequestVote_granted _ hv
    by_contra hne
    have hself := hvf.symm.trans (hrole.voted hne)
    exact hok.foreign (c.nodeId_eq_iff.mp (hok.candidate.symm.trans hself)).symm
  have hnode := h.setNode hrole (Keeps.handleRequestVote call.request)
  refine hnode.setVoteCalls (CallsGrow.answer hk hnone _) ?_ ?_ ?_
  · intro call' hcall'
    rcases List.mem_or_eq_of_mem_set hcall' with hin | rfl
    · exact hnode.vote call' hin
    · refine ⟨hok.candidate, hok.foreign, fun r hr hv => ?_⟩
      simp only [Option.some.injEq] at hr
      subst hr
      obtain ⟨ht, hvf, -, -⟩ := RaftNode.handleRequestVote_granted _ hv
      simp only [Cluster.setProc_procs, Function.update_self]
      exact ⟨ht.ge, fun _ => ⟨hvf.trans hok.candidate, hbound hv⟩⟩
  · intro U j k₁ k₂ h₁ h₂
    rcases hback h₁ with h₁ | ⟨hv, hj, hk₁, hU⟩ <;> rcases hback h₂ with h₂ | ⟨hv', hj', hk₂, hU'⟩
    · exact h.unique U j k₁ k₂ h₁ h₂
    · exact (hold h₁ hv' hj' hU').symm.trans hk₂
    · exact hk₁.symm.trans (hold h₂ hv hj hU)
    · exact hk₁.symm.trans hk₂
  · intro U l k' hl hg
    rcases hback hg with hg | ⟨hv, rfl, -, rfl⟩
    · exact h.clean U l k' hl hg
    · obtain ⟨ht, -, -, -⟩ := RaftNode.handleRequestVote_granted _ hv
      have hlead := (hrole.stays _ hl).2 ht.symm
      exact absurd (hlead.symm.trans (hbound hv)) (by simp)

/-- Nobody has won a term in which a candidate reaches its quorum. -/
theorem leaderOf_eq_none (h : ElectionInv c s lo) {U : ℕ} {Q : Finset ι}
    (hs : (s.procs i).node.state = .candidate) (ht : (s.procs i).node.currentTerm = U)
    (hQ : Majority Q) (hall : ∀ j ∈ Q, j = i ∨ Granted s.voteCalls U j i) : lo U = none := by
  by_contra hne
  obtain ⟨l, hl⟩ := Option.ne_none_iff_exists'.mp hne
  -- a candidate is bound by no grant of its own
  have hfree : ∀ k, ¬ Granted s.voteCalls U i k := fun k hg => by
    have hb := ((h.granted_binds hg).2.2 ht.symm).2
    rw [hs] at hb
    cases hb
  have hstays := (h.role i).stays U
  obtain ⟨Q', hQ', hall'⟩ := h.elected U l hl
  obtain ⟨j, hj, hj'⟩ := hQ.meet hQ'
  rcases hall j hj with rfl | hg <;> rcases hall' j hj' with rfl | hg'
  · have := (hstays hl).2 ht.symm
    rw [hs] at this
    cases this
  · exact hfree l hg'
  · exact h.clean U j i hl hg
  · have hil := h.unique U j i l hg hg'
    subst hil
    have := (hstays hl).2 ht.symm
    rw [hs] at this
    cases this

/-- Entering a leader into the history of a term that had none. -/
theorem elect (h : ElectionInv c s lo) {U : ℕ} {Q : Finset ι} (hU : 0 < U) (hnone : lo U = none)
    (ht : (s.procs i).node.currentTerm = U) (hQ : Majority Q)
    (hall : ∀ j ∈ Q, j = i ∨ Granted s.voteCalls U j i) {p : Process ι F}
    (hpt : p.node.currentTerm = U) (hpv : p.node.votedFor = c.nodeId i)
    (hps : p.node.state = .leader) (hcand : (s.procs i).node.state = .candidate)
    (hthread : ∀ e, p.election = some e → ThreadOk c s.voteCalls i U e) :
    ElectionInv c (s.setProc i p) (Function.update lo U (some i)) := by
  have hother : ∀ {V : ℕ} {l : ι}, lo V = some l → Function.update lo U (some i) V = some l := by
    intro V l hl
    have hVU : V ≠ U := by
      rintro rfl
      rw [hnone] at hl
      cases hl
    rw [Function.update_of_ne hVU, hl]
  have hfree : ∀ k, ¬ Granted s.voteCalls U i k := fun k hg => by
    have hb := ((h.granted_binds hg).2.2 ht.symm).2
    rw [hcand] at hb
    cases hb
  refine ⟨?_, ?_, h.unique, ?_, ?_, ?_, ?_, ?_⟩
  · refine (Function.forall_update_iff s.procs fun j p => RoleOk c _ j p.node).mpr ⟨?_, ?_⟩
    · refine ⟨fun _ => hpv, fun _ => by rw [hpt, Function.update_self], fun V hV => ?_⟩
      rcases of_update_some hV with ⟨rfl, -⟩ | ⟨-, hV⟩
      · exact ⟨by omega, fun _ => hps⟩
      · have := ((h.role i).stays V hV).1
        exact ⟨by omega, fun _ => hps⟩
    · intro j hj
      refine ⟨(h.role j).voted, fun hl => hother ((h.role j).leads hl), fun V hV => ?_⟩
      rcases of_update_some hV with ⟨-, hji⟩ | ⟨-, hV⟩
      · exact absurd hji hj
      · exact (h.role j).stays V hV
  · intro call hmem
    have hok := h.vote call hmem
    by_cases hi : call.callee = i
    · refine ⟨hok.candidate, hok.foreign, fun r hr hg => ?_⟩
      obtain ⟨hle, hb⟩ := hok.binds r hr hg
      simp only [Cluster.setProc_procs, hi, Function.update_self]
      rw [hi] at hle hb
      refine ⟨by omega, fun he => ?_⟩
      have := (hb (by omega)).2
      rw [hcand] at this
      cases this
    · simp only [Cluster.setProc_procs, Function.update_of_ne hi]
      exact hok
  · intro j e he
    by_cases hj : j = i
    · subst hj
      simp only [Cluster.setProc_procs, Function.update_self] at he ⊢
      rw [hpt]
      exact hthread e he
    · simp only [Cluster.setProc_procs, Function.update_of_ne hj] at he ⊢
      exact h.thread j e he
  · intro V l hl
    rcases of_update_some hl with ⟨rfl, -⟩ | ⟨-, hl⟩
    · omega
    · exact h.pos V l hl
  · intro V l k hl
    rcases of_update_some hl with ⟨rfl, rfl⟩ | ⟨-, hl⟩
    · exact hfree k
    · exact h.clean V l k hl
  · intro V l hl
    rcases of_update_some hl with ⟨rfl, rfl⟩ | ⟨-, hl⟩
    · exact ⟨Q, hQ, hall⟩
    · exact h.elected V l hl
  · exact fun call hmem => ⟨hother (h.append call hmem).1, (h.append call hmem).2⟩

/-- The vote just answered adds a new voter to those already counted. -/
theorem counted_insert (h : ElectionInv c s lo) {e : Election ι} {k : ℕ} {call : VoteCall ι}
    {r : VoteResponse} (he : (s.procs i).election = some e) (hwait : e.waiting = some k)
    (hk : s.voteCalls[k]? = some call) (hr : call.response = some r) (hv : r.voteGranted = true) :
    ∃ G : Finset ι, G.card = e.votes ∧
      ∀ j ∈ G, Granted s.voteCalls e.request.term j i ∧ j ∉ e.remaining := by
  obtain ⟨G, hcard, hG, hw⟩ := (h.thread i e he).counted
  obtain ⟨call', hcall', hcaller, hreq, hnotin, hnotrem⟩ := hw k hwait
  obtain rfl : call = call' := Option.some.inj (hk.symm.trans hcall')
  refine ⟨insert call.callee G, by rw [Finset.card_insert_of_notMem hnotin, hcard], ?_⟩
  intro j hj
  rcases Finset.mem_insert.mp hj with rfl | hj
  · exact ⟨⟨call, List.mem_of_getElem? hk, rfl, hcaller, by rw [hreq], r, hr, hv⟩, hnotrem⟩
  · exact hG j hj

/-- With its own vote, a candidate that reaches the quorum has a majority. -/
theorem majority_of_votes (h : ElectionInv c s lo) {U votes : ℕ} {G : Finset ι}
    (hcard : G.card = votes) (hG : ∀ j ∈ G, Granted s.voteCalls U j i)
    (hq : (c.node i).quorumSize ≤ votes + 1) :
    ∃ Q, Majority Q ∧ ∀ j ∈ Q, j = i ∨ Granted s.voteCalls U j i := by
  have hin : i ∉ G := fun hi => (h.granted_binds (hG i hi)).1 rfl
  refine ⟨insert i G, ?_, fun j hj => (Finset.mem_insert.mp hj).imp_right (hG j)⟩
  unfold Majority
  rw [Finset.card_insert_of_notMem hin, ← c.peers_length i]
  simp only [NodeConfig.quorumSize, ClusterConfig.peers] at hq ⊢
  omega

/-- Nobody had won a term in which counting a vote makes a leader. -/
theorem receiveVote_none (h : ElectionInv c s lo) (hstep : s.step c (.receiveVote i) = some s')
    (hwon : (s.node i).state ≠ .leader ∧ (s'.node i).state = .leader) :
    lo (s'.node i).currentTerm = none := by
  obtain ⟨e, k, call, r, he, hwait, hk, hr, rfl⟩ := Cluster.receiveVote_cases hstep
  rcases Process.countVote_cases (c.node i) (s.procs i) e r with
    ⟨-, hcv⟩ | hcv | ⟨hs, ht, hv, hq, hcv⟩ | ⟨v, -, hcv⟩ <;> rw [hcv] at hwon ⊢
  · simp at hwon
  · simp at hwon
  · obtain ⟨G, hcard, hG⟩ := h.counted_insert he hwait hk hr hv
    obtain ⟨Q, hQ, hall⟩ := h.majority_of_votes hcard (fun j hj => (hG j hj).1) (by omega)
    have hnone := h.leaderOf_eq_none hs ht hQ hall
    simpa [RaftNode.becomeLeader, ht] using hnone
  · simp at hwon

/-- Counting a vote may win the term. -/
theorem receiveVote (h : ElectionInv c s lo) (hstep : s.step c (.receiveVote i) = some s') :
    ElectionInv c s' (if (s.node i).state ≠ .leader ∧ (s'.node i).state = .leader then
      Function.update lo (s'.node i).currentTerm (some i) else lo) := by
  obtain ⟨e, k, call, r, he, hwait, hk, hr, rfl⟩ := Cluster.receiveVote_cases hstep
  have hthread := h.thread i e he
  rcases Process.countVote_cases (c.node i) (s.procs i) e r with
    ⟨hlt, hcv⟩ | hcv | ⟨hs, ht, hv, hq, hcv⟩ | ⟨v, hv, hcv⟩ <;> rw [hcv]
  · -- a higher term: back to follower
    rw [if_neg (by simp)]
    have hm : max (s.procs i).node.currentTerm r.term = r.term := max_eq_right hlt.le
    refine h.setProc ((h.role i).follower rfl (le_max_left _ _) ?_) (.of_lt (by simp [hlt]))
      fun e' he' => by cases he'
    simpa [hm] using (h.role i).not_elected hlt
  · rw [if_neg (by simp)]
    exact h.setProc (h.role i) (.of_eq rfl rfl rfl) fun e' he' => by cases he'
  · -- the quorum is reached
    have hvoted := (h.role i).voted (by rw [hs]; simp)
    rw [if_pos ⟨by rw [hs]; simp, by simp [RaftNode.becomeLeader]⟩]
    obtain ⟨G, hcard, hG⟩ := h.counted_insert he hwait hk hr hv
    obtain ⟨Q, hQ, hall⟩ := h.majority_of_votes hcard (fun j hj => (hG j hj).1) (by omega)
    have hnone := h.leaderOf_eq_none hs ht hQ hall
    have hterm : ((s.setProc i { s.procs i with
        node := (s.procs i).node.becomeLeader (c.node i)
        election := some { e with votes := e.votes + 1, remaining := [], waiting := none } }).node
          i).currentTerm = e.request.term := by simp [RaftNode.becomeLeader, ht]
    rw [hterm]
    refine h.elect hthread.pos hnone ht hQ hall ht hvoted rfl hs fun e' he' => ?_
    obtain rfl := Option.some.inj he'
    exact ⟨hthread.pos, le_rfl, hthread.candidate, List.nodup_nil, by simp, G, by rw [hcard],
      fun j hj => ⟨(hG j hj).1, by simp⟩, by simp⟩
  · rw [if_neg (by simp)]
    refine h.setProc (h.role i) (.of_eq rfl rfl rfl) fun e' he' => ?_
    obtain rfl := Option.some.inj he'
    have hcounted : ∃ G : Finset ι, G.card + 1 = v ∧
        ∀ j ∈ G, Granted s.voteCalls e.request.term j i ∧ j ∉ e.remaining := by
      rcases hv with rfl | ⟨rfl, hv⟩
      · obtain ⟨G, hcard, hG, -⟩ := hthread.counted
        exact ⟨G, hcard, hG⟩
      · obtain ⟨G, hcard, hG⟩ := h.counted_insert he hwait hk hr hv
        exact ⟨G, by rw [hcard], hG⟩
    obtain ⟨G, hcard, hG⟩ := hcounted
    exact ⟨hthread.pos, hthread.term_le, hthread.candidate, hthread.nodup, hthread.foreign, G,
      hcard, hG, by simp⟩

/-! ### All steps -/

theorem init [Zero F] (c : ClusterConfig ι) :
    ElectionInv c (Cluster.start c : Cluster ι F) (History.start c : History ι F).leaderOf := by
  have hnone : ∀ U j k, ¬ Granted (Cluster.start c : Cluster ι F).voteCalls U j k := by
    rintro U j k ⟨call, hmem, -⟩
    cases hmem
  have hnode : ∀ j, (((Cluster.start c).procs j).node : RaftNode ι F) = RaftNode.start (c.node j) :=
    fun _ => rfl
  -- a node without peers is the only node
  have halone : ∀ {j k}, c.peers j = [] → k = j := fun {j k} hj => by
    by_contra hne
    have := c.mem_peers_iff.mpr hne
    rw [hj] at this
    cases this
  have hlead : ∀ {U l}, (History.start c : History ι F).leaderOf U = some l →
      U = 1 ∧ c.peers l = [] := by
    intro U l hl
    simp only [History.start] at hl
    split_ifs at hl with hex
    exact ⟨hex.1, Option.some.inj hl ▸ hex.2.choose_spec⟩
  refine ⟨?_, by simp [Cluster.start], fun U j k k' hg => absurd hg (hnone U j k), ?_, ?_,
    fun U l k _ => hnone U l k, ?_, by simp [Cluster.start]⟩
  · intro j
    rw [hnode]
    by_cases hj : c.peers j = []
    · rw [RaftNode.start_alone hj]
      refine ⟨fun _ => rfl, fun _ => ?_, fun U hU => ⟨(hlead hU).1.le, fun _ => rfl⟩⟩
      simp only [RaftNode.becomeLeader, History.start]
      rw [dif_pos ⟨trivial, j, hj⟩, Option.some.injEq]
      exact halone hj
    · rw [RaftNode.start_peers hj]
      exact ⟨fun hf => absurd rfl hf, fun hl => absurd hl (by simp),
        fun U hU => absurd (hlead hU).2 hj⟩
  · intro j e he
    cases he
  · intro U l hl
    have := (hlead hl).1
    omega
  · intro U l hl
    refine ⟨{l}, ?_, fun j hj => Or.inl (Finset.mem_singleton.mp hj)⟩
    unfold Majority
    rw [← c.peers_length l, (hlead hl).2]
    simp

theorem step (h : ElectionInv c s lo) {a : Action ι F} {g : History ι F} (hg : g.leaderOf = lo)
    (hstep : s.step c a = some s') : ElectionInv c s' (History.record s a s' g).leaderOf := by
  subst hg
  cases a with
  | startElection i => exact h.startElection hstep
  | sendVoteRequest i => exact h.sendVoteRequest hstep
  | handleRequestVote k => exact h.handleRequestVote hstep
  | receiveVote i =>
    have hr := h.receiveVote hstep
    simp only [History.record, History.hold]
    split_ifs at hr ⊢ <;> exact hr
  | voteRequestFailed i =>
    obtain ⟨e, he, rfl⟩ := Cluster.voteRequestFailed_cases hstep
    have ht := h.thread i e he
    refine h.setProc (h.role i) (.of_eq rfl rfl rfl) fun e' he' => ?_
    obtain rfl := Option.some.inj he'
    obtain ⟨G, hcard, hG, -⟩ := ht.counted
    exact ⟨ht.pos, ht.term_le, ht.candidate, ht.nodup, ht.foreign, G, hcard, hG, by simp⟩
  | finishElection i =>
    obtain rfl := Cluster.finishElection_cases hstep
    exact h.setProc (h.role i) (.of_eq rfl rfl rfl) fun e' he' => by cases he'
  | replicate i peer =>
    obtain ⟨hs, hne, ⟨m, t, -, rfl⟩ | rfl⟩ := Cluster.replicate_cases hstep
    · have hnode := h.setProc_of_eq (i := i) (p := { s.procs i with node := { s.node i with
        nextIndex := Function.update (s.node i).nextIndex peer (m + 1) } }) rfl rfl rfl rfl
      refine hnode.setAppendCalls fun call hcall => ?_
      rcases List.mem_append.mp hcall with hcall | hcall
      · exact h.append call hcall
      · obtain rfl := List.mem_singleton.mp hcall
        exact ⟨(h.role i).leads hs, hne⟩
    · exact h.setProc_of_eq rfl rfl rfl rfl
  | handleAppendEntries k =>
    obtain ⟨call, hk, -, rfl⟩ := Cluster.handleAppendEntries_cases hstep
    have hcall := h.append call (List.mem_of_getElem? hk)
    have hrole := (h.role call.callee).handleAppendEntries (r := call.request) <| by
      rw [hcall.1]
      exact fun he => hcall.2 (Option.some.inj he).symm
    refine (h.setNode hrole (.handleAppendEntries _)).setAppendCalls fun call' hcall' => ?_
    rcases List.mem_or_eq_of_mem_set hcall' with hin | rfl
    · exact h.append call' hin
    · exact hcall
  | receiveAppend k =>
    obtain ⟨call, r, hk, -, rfl⟩ := Cluster.receiveAppend_cases hstep
    refine (h.setNode ((h.role call.caller).handleAppendResponse _ _ _ _)
      (.handleAppendResponse _ _ _ _)).setAppendCalls fun call' hcall' => ?_
    rcases List.mem_or_eq_of_mem_set hcall' with hin | rfl
    · exact h.append call' hin
    · exact h.append call (List.mem_of_getElem? hk)
  | propose i e =>
    obtain ⟨-, rfl⟩ := Cluster.propose_cases hstep
    obtain ⟨-, ht, hv, hs, -⟩ := (s.node i).appendStamped_frame (c.node i) e
    exact (h.setNode ((h.role i).of_eq ht hv hs) (.of_eq ht hv hs)).setProposals _
  | checkProposal k timedOut =>
    obtain ⟨call, -, -, ⟨-, rfl⟩ | rfl | rfl⟩ := Cluster.checkProposal_cases hstep
    · exact h.setProposals _
    · exact h.setProposals _
    · exact h
  | appendLocalEntry i e =>
    obtain ⟨-, rfl⟩ := Cluster.appendLocalEntry_cases hstep
    obtain ⟨-, ht, hv, hs, -⟩ := (s.node i).appendStamped_frame (c.node i) e
    exact h.setProc_of_eq ht hv hs rfl
  | applyTake i =>
    obtain ⟨-, -, -, ⟨e, -, rfl⟩ | ⟨-, rfl⟩⟩ := Cluster.applyTake_cases hstep <;>
      exact h.setProc_of_eq rfl rfl rfl rfl
  | applyReturn i =>
    obtain ⟨m, e, -, rfl⟩ := Cluster.applyReturn_cases hstep
    exact h.setProc_of_eq rfl rfl rfl rfl
  | applyNotify i =>
    obtain ⟨-, rfl⟩ := Cluster.applyNotify_cases hstep
    exact h.setProc_of_eq rfl rfl rfl rfl

/-- A leader once elected stays the leader of its term in the history. -/
theorem record_mono {g : History ι F} (h : ElectionInv c s g.leaderOf) {a : Action ι F}
    (hstep : s.step c a = some s') {T : ℕ} {l : ι} (hl : g.leaderOf T = some l) :
    (History.record s a s' g).leaderOf T = some l := by
  cases a with
  | receiveVote i =>
    simp only [History.record, History.hold]
    split_ifs with hwon
    · have hnone := h.receiveVote_none hstep hwon
      have hT : T ≠ (s'.node i).currentTerm := by
        rintro rfl
        rw [hnone] at hl
        cases hl
      exact (Function.update_of_ne hT _ _).trans hl
    · exact hl
  | _ => exact hl

end ElectionInv

namespace Cluster

variable [Fintype ι] [DecidableEq ι] [Zero F]

/-- The history knows the leader of every moment of the run. -/
theorem past_leaders (c : ClusterConfig ι) {as : List (Action ι F)} {s : Cluster ι F}
    (h : (system c).exec as = some s) : ∃ g : History ι F, ElectionInv c s g.leaderOf ∧
      ∀ u, (system c).Passes as u → ∀ i, (u.node i).state = .leader →
        g.leaderOf (u.node i).currentTerm = some i := by
  have hall := (system c).historyInvariant (g := History.start c)
    (P := fun as s g => (system c).exec as = some s ∧ ElectionInv c s g.leaderOf ∧
      ∀ u, (system c).Passes as u → ∀ i, (u.node i).state = .leader →
        g.leaderOf (u.node i).currentTerm = some i) History.record ?_ ?_ h
  · obtain ⟨g, -, hg⟩ := hall
    exact ⟨g, hg⟩
  · refine ⟨rfl, .init c, fun u hu i hi => ?_⟩
    rw [hu.of_nil] at hi ⊢
    exact ((ElectionInv.init c).role i).leads hi
  · rintro as s a s' g ⟨hrun, hinv, hpast⟩ hstep
    have hrun' := (system c).exec_concat.mpr ⟨s, hrun, hstep⟩
    have hinv' := hinv.step rfl hstep
    refine ⟨hrun', hinv', fun u hu i hi => ?_⟩
    rcases hu.of_concat with hu | hu
    · exact hinv.record_mono hstep (hpast u hu i hi)
    · obtain rfl := Option.some.inj (hu.symm.trans hrun')
      exact (hinv'.role i).leads hi

/-- Election safety: no two nodes ever lead in the same term of a run. -/
theorem election_safety (c : ClusterConfig ι) (as : List (Action ι F)) (u v : Cluster ι F)
    (hu : (system c).Passes as u) (hv : (system c).Passes as v) (i j : ι)
    (hi : (u.node i).state = .leader) (hj : (v.node j).state = .leader)
    (ht : (u.node i).currentTerm = (v.node j).currentTerm) : i = j := by
  rcases hu.total hv with ⟨bs, hrun, hpass⟩ | ⟨bs, hrun, hpass⟩
  · obtain ⟨g, -, hg⟩ := past_leaders c hrun
    have h1 := hg u hpass i hi
    rw [ht, hg v (.last hrun) j hj] at h1
    exact (Option.some.inj h1).symm
  · obtain ⟨g, -, hg⟩ := past_leaders c hrun
    have h1 := hg u (.last hrun) i hi
    rw [ht, hg v hpass j hj] at h1
    exact (Option.some.inj h1).symm

/-- Node 1 is elected with the vote of node 2 and serves a client. -/
def electionRun : List (Action (Fin 3) ℕ) :=
  [.startElection 0, .sendVoteRequest 0, .handleRequestVote 0, .receiveVote 0, .finishElection 0,
    .appendLocalEntry 0 (.acquire "agent" [1] 1)]

theorem election_safety_elected :
    ∃ u v : Cluster (Fin 3) ℕ, (system .testNodes).Passes electionRun u ∧
      (system .testNodes).Passes electionRun v ∧ (u.node 0).state = .leader ∧
      (v.node 0).state = .leader ∧
      (u.node 0).log.length = 1 ∧ (v.node 0).log.length = 2 ∧ (0 : Fin 3) = 0 := by
  have hu : ((system .testNodes).exec (electionRun.take 4)).isSome := rfl
  have hv : ((system .testNodes).exec electionRun).isSome := rfl
  have hpass : (system .testNodes).Passes electionRun (Option.get _ hu) :=
    ⟨4, (Option.some_get hu).symm⟩
  exact ⟨_, _, hpass, .get hv, rfl, rfl, rfl, rfl,
    election_safety .testNodes electionRun _ _ hpass (.get hv) 0 0 rfl rfl rfl⟩

end Cluster

end DistributedLock.Raft
