import DistributedLock.Raft.ElectionSafety
import DistributedLock.Raft.Effects

/-! Whom a node names as the leader, in answers to `GetLeader` and in redirects. The
two hint fields are cleared with every new term that has no known leader, and filled
in only by the node that has won the term or from a request of that node, however
late the request arrives. -/

namespace DistributedLock.Raft

open Library

variable {ι F : Type*}

namespace RaftNode

/-- The id and the address of the leader as the node knows them, with the term. -/
def hint (n : RaftNode ι F) : ℕ × String × String :=
  (n.currentTerm, n.currentLeaderId, n.currentLeaderAddress)

theorem start_currentTerm_le [Zero F] (cfg : NodeConfig ι) :
    (start cfg : RaftNode ι F).currentTerm ≤ 1 := by
  by_cases h : cfg.peerAddresses = []
  · rw [start_alone h]
    exact le_rfl
  · rw [start_peers h]
    exact Nat.zero_le 1

theorem handleRequestVote_hint (n : RaftNode ι F) (r : VoteRequest) :
    (n.handleRequestVote r).1.hint.2 = ("", "") ∨ (n.handleRequestVote r).1.hint = n.hint := by
  unfold handleRequestVote
  split_ifs
  · exact Or.inr rfl
  rcases n.observeTerm_cases r.term with ⟨-, he⟩ | ⟨-, he⟩ <;> rw [he]
  · left
    rcases (n.becomeFollower r.term "" "").castVote_cases r with hc | ⟨-, -, hc⟩
    · rw [hc]
      rfl
    · rw [hc]
      rfl
  · right
    rcases n.castVote_cases r with hc | ⟨-, -, hc⟩
    · rw [hc]
    · rw [hc]
      rfl

theorem handleAppendEntries_hint (n : RaftNode ι F) (r : AppendRequest F) :
    (n.handleAppendEntries r).1.hint = n.hint ∨
      (n.handleAppendEntries r).1.hint = (r.term, r.leaderId, r.leaderServiceAddress) := by
  by_cases h : r.term < n.currentTerm
  · left
    unfold handleAppendEntries
    rw [if_pos h]
  · right
    have hhint : (n.acceptLeader r).hint = (r.term, r.leaderId, r.leaderServiceAddress) := by
      refine Prod.ext (n.acceptLeader_term (not_lt.mp h)) ?_
      unfold acceptLeader
      split_ifs <;> rfl
    unfold handleAppendEntries
    rw [if_neg h]
    dsimp only
    split_ifs
    · rw [followCommit_eq]
      exact hhint
    · exact hhint

theorem handleAppendResponse_hint [DecidableEq ι] (n : RaftNode ι F) (cfg : NodeConfig ι)
    (peer : ι) (T : ℕ) (r : AppendResponse) :
    (n.handleAppendResponse cfg peer T r).hint.2 = ("", "") ∨
      (n.handleAppendResponse cfg peer T r).hint = n.hint := by
  rcases n.handleAppendResponse_cases cfg peer T r with ⟨-, h⟩ | ⟨f, h⟩ | ⟨-, -, -, h⟩ <;> rw [h]
  · exact Or.inl rfl
  · exact Or.inr rfl
  · rcases (n.withMatch peer r.matchIndex).advanceCommitIndex_cases cfg with h' | ⟨m, -, -, -, -, h'⟩
      <;> rw [h'] <;> exact Or.inr rfl

theorem appendStamped_hint (n : RaftNode ι F) (cfg : NodeConfig ι) (e : LogEntry F) :
    (n.appendStamped cfg e).hint = n.hint := by
  unfold appendStamped
  dsimp only
  split_ifs <;> rfl

end RaftNode

/-- The hint is empty, or stays, or names a new leader itself, or is a request's. -/
theorem NodeChange.hint_cases [DecidableEq ι] {c : ClusterConfig ι} {s : Cluster ι F} {j : ι}
    {n n' : RaftNode ι F} (h : NodeChange c s j n n') :
    n'.hint.2 = ("", "") ∨ n'.hint = n.hint ∨
      (n'.state = .leader ∧ n'.hint.2 = (c.nodeId j, (c.node j).serviceAddress)) ∨
      ∃ call ∈ s.appendCalls, n'.hint =
        (call.request.term, call.request.leaderId, call.request.leaderServiceAddress) := by
  cases h with
  | same => exact Or.inr (Or.inl rfl)
  | startElection h => exact Or.inl rfl
  | requestVote call hmem hj =>
    exact (n.handleRequestVote_hint call.request).imp_right Or.inl
  | stepDown T h => exact Or.inl rfl
  | elect h => exact Or.inr (Or.inr (Or.inl ⟨rfl, rfl⟩))
  | replicate f => exact Or.inr (Or.inl rfl)
  | appendEntries call hmem hj =>
    rcases n.handleAppendEntries_hint call.request with he | he
    · exact Or.inr (Or.inl he)
    · exact Or.inr (Or.inr (Or.inr ⟨call, hmem, he⟩))
  | appendResponse call hmem hj r hr =>
    exact (n.handleAppendResponse_hint _ _ _ r).imp_right Or.inl
  | stamp e h => exact Or.inr (Or.inl (n.appendStamped_hint (c.node j) e))
  | take h => exact Or.inr (Or.inl rfl)

/-! ### The invariant of a cluster -/

/-- A hint of a term is empty or names the leader elected in that term. -/
def Names (c : ClusterConfig ι) (lo : ℕ → Option ι) (hint : ℕ × String × String) : Prop :=
  hint.2 = ("", "") ∨
    ∃ l, lo hint.1 = some l ∧ hint.2 = (c.nodeId l, (c.node l).serviceAddress)

theorem Names.mono {c : ClusterConfig ι} {lo lo' : ℕ → Option ι} {hint : ℕ × String × String}
    (h : Names c lo hint) (hlo : ∀ T l, lo T = some l → lo' T = some l) : Names c lo' hint :=
  h.imp_right fun ⟨l, hl, he⟩ => ⟨l, hlo _ _ hl, he⟩

/-- Every request carries the id and the address of its sender. -/
structure HintInv (c : ClusterConfig ι) (s : Cluster ι F) (lo : ℕ → Option ι) : Prop where
  node : ∀ i, Names c lo (s.node i).hint
  request : ∀ call ∈ s.appendCalls, call.request.leaderId = c.nodeId call.caller ∧
    call.request.leaderServiceAddress = (c.node call.caller).serviceAddress

namespace HintInv

variable [Fintype ι] [DecidableEq ι] {c : ClusterConfig ι} {s s' : Cluster ι F}
  {g : History ι F} {a : Action ι F}

omit [Fintype ι] in
theorem request_step (h : HintInv c s g.leaderOf) (hstep : s.step c a = some s') :
    ∀ call ∈ s'.appendCalls, call.request.leaderId = c.nodeId call.caller ∧
      call.request.leaderServiceAddress = (c.node call.caller).serviceAddress := by
  intro call' hmem
  rcases (Cluster.calls_eq hstep).2.1 with heq | ⟨i, peer, rfl⟩ | ⟨k, rfl⟩ | ⟨k, rfl⟩
  · exact h.request call' (heq ▸ hmem)
  · obtain ⟨-, -, ⟨m, t, -, rfl⟩ | rfl⟩ := Cluster.replicate_cases hstep
    · rcases List.mem_append.mp hmem with hold | hnew
      · exact h.request call' hold
      · obtain rfl := List.mem_singleton.mp hnew
        exact ⟨rfl, rfl⟩
    · exact h.request call' hmem
  · obtain ⟨call, hk, -, rfl⟩ := Cluster.handleAppendEntries_cases hstep
    rcases List.mem_or_eq_of_mem_set hmem with hold | rfl
    · exact h.request call' hold
    · exact h.request call (List.mem_of_getElem? hk)
  · obtain ⟨call, r, hk, -, rfl⟩ := Cluster.receiveAppend_cases hstep
    rcases List.mem_or_eq_of_mem_set hmem with hold | rfl
    · exact h.request call' hold
    · exact h.request call (List.mem_of_getElem? hk)

theorem step (h : HintInv c s g.leaderOf) (he : ElectionInv c s g.leaderOf)
    (hstep : s.step c a = some s') : HintInv c s' (History.record s a s' g).leaderOf := by
  have hmono : ∀ T l, g.leaderOf T = some l →
      (History.record s a s' g).leaderOf T = some l := fun T l => he.record_mono hstep
  refine ⟨fun i => ?_, h.request_step hstep⟩
  rcases (Cluster.step_node hstep i).hint_cases with hnone | hsame | ⟨hlead, hown⟩ | ⟨call, hmem, hr⟩
  · exact Or.inl hnone
  · rw [hsame]
    exact (h.node i).mono hmono
  · exact Or.inr ⟨i, ((he.step rfl hstep).role i).leads hlead, hown⟩
  · obtain ⟨hid, haddress⟩ := h.request call hmem
    rw [hr, hid, haddress]
    exact Or.inr ⟨call.caller, hmono _ _ (he.append call hmem).1, rfl⟩

theorem init [Zero F] (c : ClusterConfig ι) :
    HintInv c (Cluster.start c : Cluster ι F) (History.start c : History ι F).leaderOf := by
  refine ⟨fun i => ?_, by simp [Cluster.start]⟩
  have hlead := ((ElectionInv.init (F := F) c).role i).leads
  rw [show ((Cluster.start c).procs i).node = (RaftNode.start (c.node i) : RaftNode ι F) from rfl]
    at hlead
  rw [Cluster.start_node]
  by_cases hi : (c.node i).peerAddresses = []
  · rw [RaftNode.start_alone hi] at hlead ⊢
    exact Or.inr ⟨i, hlead rfl, rfl⟩
  · rw [RaftNode.start_peers hi]
    exact Or.inl rfl

end HintInv

namespace Cluster

variable [Fintype ι] [DecidableEq ι] [Zero F]

/-- `l` has been the leader of term `T` at some moment of the run. -/
def Elected (c : ClusterConfig ι) (as : List (Action ι F)) (T : ℕ) (l : ι) : Prop :=
  ∃ u, (system c).Passes as u ∧ (u.node l).state = .leader ∧ (u.node l).currentTerm = T

/-- The leaders on record were leaders. -/
theorem exists_hintInv (c : ClusterConfig ι) {as : List (Action ι F)} {s : Cluster ι F}
    (h : (system c).exec as = some s) : ∃ g : History ι F, HintInv c s g.leaderOf ∧
      ElectionInv c s g.leaderOf ∧ ∀ T l, g.leaderOf T = some l → Elected c as T l := by
  have hall := (system c).historyInvariant (g := History.start c)
    (P := fun as s g => (system c).exec as = some s ∧ HintInv c s g.leaderOf ∧
      ElectionInv c s g.leaderOf ∧ ∀ T l, g.leaderOf T = some l → Elected c as T l)
    History.record ?_ ?_ h
  · obtain ⟨g, -, hg⟩ := hall
    exact ⟨g, hg⟩
  · refine ⟨rfl, .init c, .init c, fun T l hl => ?_⟩
    have helect := ElectionInv.init (F := F) c
    obtain ⟨hle, hlead⟩ : T ≤ ((Cluster.start c : Cluster ι F).node l).currentTerm ∧ _ :=
      (helect.role l).stays T hl
    rw [start_node] at hle
    have hpos := helect.pos T l hl
    have hT : T = ((Cluster.start c : Cluster ι F).node l).currentTerm := by
      have hstart := RaftNode.start_currentTerm_le (F := F) (c.node l)
      rw [start_node]
      omega
    exact ⟨Cluster.start c, .last rfl, hlead hT, hT.symm⟩
  · rintro as s a s' g ⟨hrun, hhint, helect, hpast⟩ hstep
    have hrun' := (system c).exec_concat.mpr ⟨s, hrun, hstep⟩
    refine ⟨hrun', hhint.step helect hstep, helect.step rfl hstep, fun T l hl => ?_⟩
    have hold : g.leaderOf T = some l → Elected c (as ++ [a]) T l := fun hl => by
      obtain ⟨u, hu, hlead, hterm⟩ := hpast T l hl
      exact ⟨u, hu.append [a], hlead, hterm⟩
    rcases leaderOf_cases g hstep with ⟨heq, -⟩ | ⟨i, -, -, hlead, hterm, -, hupd, -⟩
    · exact hold (heq ▸ hl)
    · rw [hupd] at hl
      rcases of_update_some hl with ⟨rfl, rfl⟩ | ⟨-, hl⟩
      · exact ⟨s', .last hrun', hlead, hterm⟩
      · exact hold hl

/-- Leader hints are sound: the leader that a node names, in its answer to `GetLeader`
and in a redirect, was elected in the node's own term. -/
theorem leader_hints_sound (c : ClusterConfig ι) (as : List (Action ι F)) (s : Cluster ι F)
    (h : (system c).exec as = some s) (i : ι) :
    ((((s.node i).handleGetLeader (c.node i)).leaderAddress ≠ "" ∨
        ((s.node i).handleGetLeader (c.node i)).leaderId ≠ "") →
      ∃ l, Elected c as ((s.node i).handleGetLeader (c.node i)).currentTerm l ∧
        ((s.node i).handleGetLeader (c.node i)).leaderAddress = (c.node l).serviceAddress ∧
        ((s.node i).handleGetLeader (c.node i)).leaderId = c.nodeId l) ∧
    ((s.node i).leaderAddress (c.node i) ≠ "" →
      ∃ l, Elected c as (s.node i).currentTerm l ∧
        (s.node i).leaderAddress (c.node i) = (c.node l).serviceAddress) := by
  obtain ⟨g, hhint, helect, hpast⟩ := exists_hintInv c h
  by_cases hlead : (s.node i).state = .leader
  · have hi := hpast _ _ ((helect.role i).leads hlead)
    refine ⟨fun _ => ⟨i, hi, ?_, ?_⟩, fun _ => ⟨i, hi, ?_⟩⟩
    · exact if_pos hlead
    · exact if_pos hlead
    · exact if_pos hlead
  · simp only [RaftNode.handleGetLeader, RaftNode.leaderAddress, if_neg hlead]
    rcases hhint.node i with hnone | ⟨l, hl, hhint⟩
    · obtain ⟨hid, haddress⟩ := Prod.mk.inj hnone
      rw [hid, haddress]
      simp
    · obtain ⟨hid, haddress⟩ := Prod.mk.inj hhint
      rw [hid, haddress]
      exact ⟨fun _ => ⟨l, hpast _ _ hl, rfl, rfl⟩, fun _ => ⟨l, hpast _ _ hl, rfl⟩⟩

/-- Node 2 has heard from node 1, the leader of term 1; node 3 is a candidate of term 2. -/
def hintRun : List (Action (Fin 3) ℕ) :=
  [.startElection 0, .sendVoteRequest 0, .handleRequestVote 0, .receiveVote 0, .replicate 0 1,
    .handleAppendEntries 0, .startElection 2, .sendVoteRequest 2]

theorem leader_hints_sound_follower :
    ∃ s : Cluster (Fin 3) ℕ, (system .testNodes).exec hintRun = some s ∧
      ((s.node 1).handleGetLeader (ClusterConfig.testNodes.node 1)).leaderAddress =
        "127.0.0.1:37100" ∧
      ∃ l, Elected .testNodes hintRun 1 l := by
  obtain ⟨s, hs, hterm, haddress⟩ := System.exists_exec (system .testNodes) hintRun
    (fun s => ((s.node 1).handleGetLeader (ClusterConfig.testNodes.node 1)).currentTerm = 1 ∧
      ((s.node 1).handleGetLeader (ClusterConfig.testNodes.node 1)).leaderAddress =
        "127.0.0.1:37100") (by decide +kernel)
  obtain ⟨l, hl, -⟩ := (leader_hints_sound .testNodes hintRun s hs 1).1
    (Or.inl (by rw [haddress]; decide))
  exact ⟨s, hs, haddress, l, hterm ▸ hl⟩

end Cluster

end DistributedLock.Raft
