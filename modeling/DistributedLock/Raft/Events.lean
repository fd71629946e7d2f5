import DistributedLock.Raft.Apply

/-! One node by itself. Everything that other nodes, the network and its own Raft
threads can do to a process is an event with arbitrary contents, so what holds under
all events holds of the node in every cluster. Proposals, the callback and the end of
an election are not events: the threads that make them belong to the lock service. -/

namespace DistributedLock.Raft

variable {ι F : Type*}

inductive RaftEvent (ι F : Type*) where
  | startElection
  | sendVoteRequest (call : ℕ)
  | receiveVote (response : VoteResponse)
  | voteRequestFailed
  | requestVote (request : VoteRequest)
  | replicate (peer : ι)
  | appendEntries (request : AppendRequest F)
  | receiveAppend (peer : ι) (sentTerm : ℕ) (response : AppendResponse)
  | applyTake
  | applyNotify

namespace Process

/-- The election thread gets an answer to the request it waits for. -/
def receiveVote (cfg : NodeConfig ι) (p : Process ι F) (response : VoteResponse) :
    Option (Process ι F) :=
  match p.election with
  | some e =>
    if e.waiting.isNone ∨ p.halted then none else some (p.countVote cfg e response)
  | none => none

variable [DecidableEq ι]

def event (cfg : NodeConfig ι) (p : Process ι F) : RaftEvent ι F → Option (Process ι F)
  | .startElection => p.startElection cfg
  | .sendVoteRequest call => (p.sendVoteRequest call).map Prod.fst
  | .receiveVote response => p.receiveVote cfg response
  | .voteRequestFailed => p.voteRequestFailed
  | .requestVote request => (p.handleRequestVote request).map Prod.fst
  | .replicate peer => (p.replicate cfg peer).map Prod.fst
  | .appendEntries request => (p.handleAppendEntries request).map Prod.fst
  | .receiveAppend peer sentTerm response => p.receiveAppend cfg peer sentTerm response
  | .applyTake => p.applyTake
  | .applyNotify => p.applyNotify

end Process

/-! ### What an event can do -/

/-- The ways in which an event can change a process. -/
inductive EventChange [DecidableEq ι] (cfg : NodeConfig ι) (p : Process ι F) :
    Process ι F → Prop
  | node (n : RaftNode ι F) (election : Option (Election ι))
    (hlast : n.lastApplied = p.node.lastApplied)
    (hlead : p.node.state = .leader → n.state = .leader →
      n.log = p.node.log ∧ n.currentTerm = p.node.currentTerm) :
    EventChange cfg p { p with node := n, election := election }
  | halt : EventChange cfg p { p with halted := true }
  | take (e : LogEntry F) (hidle : p.phase = .idle) (hrun : p.halted = false)
    (hlt : p.node.lastApplied < p.node.commitIndex)
    (he : p.node.log[p.node.lastApplied + 1]? = some e) :
    EventChange cfg p { p with
      node := { p.node with lastApplied := p.node.lastApplied + 1 }
      phase := .calling (p.node.lastApplied + 1) e }
  | fault (hlt : p.node.lastApplied < p.node.commitIndex)
    (he : p.node.log[p.node.lastApplied + 1]? = none) :
    EventChange cfg p { p with
      node := { p.node with lastApplied := p.node.lastApplied + 1 }, halted := true }
  | notify (hret : p.phase = .returned) : EventChange cfg p { p with phase := .idle }

namespace Process

variable [DecidableEq ι] {cfg : NodeConfig ι} {p p' : Process ι F}

theorem receiveVote_change {response : VoteResponse}
    (h : p.receiveVote cfg response = some p') : EventChange cfg p p' := by
  unfold receiveVote at h
  cases helection : p.election with
  | none => simp [helection] at h
  | some e =>
    simp only [helection] at h
    split_ifs at h
    obtain rfl := Option.some.inj h
    rcases countVote_cases cfg p e response with
      ⟨-, hcv⟩ | hcv | ⟨hs, -, -, -, hcv⟩ | ⟨v, -, hcv⟩ <;> rw [hcv]
    · exact .node _ _ rfl fun _ hf => by cases hf
    · exact .node _ _ rfl fun _ _ => ⟨rfl, rfl⟩
    · exact .node _ _ rfl fun _ _ => ⟨rfl, rfl⟩
    · exact .node _ _ rfl fun _ _ => ⟨rfl, rfl⟩

theorem event_change {ev : RaftEvent ι F} (h : p.event cfg ev = some p') :
    EventChange cfg p p' := by
  cases ev with
  | startElection =>
    simp only [event, startElection] at h
    split_ifs at h with hg
    obtain rfl := Option.some.inj h
    exact .node _ _ rfl fun _ hf => by cases hf
  | sendVoteRequest call =>
    simp only [event, sendVoteRequest, Option.map_eq_some_iff] at h
    obtain ⟨⟨q, peer, r⟩, hq, rfl⟩ := h
    split at hq
    · split_ifs at hq
      obtain rfl := congrArg Prod.fst (Option.some.inj hq)
      exact .node _ _ rfl fun _ _ => ⟨rfl, rfl⟩
    · cases hq
  | receiveVote response => exact receiveVote_change h
  | voteRequestFailed =>
    simp only [event, voteRequestFailed] at h
    split at h
    · split_ifs at h
      obtain rfl := Option.some.inj h
      exact .node _ _ rfl fun _ _ => ⟨rfl, rfl⟩
    · cases h
  | requestVote request =>
    simp only [event, handleRequestVote, Option.map_eq_some_iff] at h
    obtain ⟨out, hout, rfl⟩ := h
    split_ifs at hout
    obtain rfl := Option.some.inj hout
    obtain ⟨hlog, -, hlast, -⟩ := p.node.handleRequestVote_frame request
    refine .node _ _ hlast fun _ hlead => ⟨hlog, ?_⟩
    rcases p.node.handleRequestVote_role request with ⟨-, -, hf⟩ | ⟨-, ht, -, -⟩
    · exact absurd (hf.symm.trans hlead) (by simp)
    · exact ht
  | replicate peer =>
    simp only [event, replicate, Option.map_eq_some_iff] at h
    obtain ⟨out, hout, rfl⟩ := h
    split_ifs at hout
    split at hout
    · rename_i n r hb
      obtain rfl := Option.some.inj hout
      obtain ⟨m, t, -, rfl, -⟩ := p.node.buildAppendRequest_cases hb
      exact .node _ _ rfl fun _ _ => ⟨rfl, rfl⟩
    · obtain rfl := Option.some.inj hout
      exact .halt
  | appendEntries request =>
    simp only [event, handleAppendEntries, Option.map_eq_some_iff] at h
    obtain ⟨out, hout, rfl⟩ := h
    split_ifs at hout
    obtain rfl := Option.some.inj hout
    refine .node _ _ (p.node.handleAppendEntries_lastApplied request) fun _ hlead => ?_
    rcases p.node.handleAppendEntries_role request with ⟨-, he⟩ | ⟨-, -, hf, -⟩
    · rw [he]
      exact ⟨rfl, rfl⟩
    · exact absurd (hf.symm.trans hlead) (by simp)
  | receiveAppend peer sentTerm response =>
    simp only [event, receiveAppend] at h
    split_ifs at h
    obtain rfl := Option.some.inj h
    obtain ⟨hlog, hlast⟩ := p.node.handleAppendResponse_log cfg peer sentTerm response
    refine .node _ _ hlast fun _ hlead => ⟨hlog, ?_⟩
    rcases p.node.handleAppendResponse_role cfg peer sentTerm response with ⟨-, he⟩ | ⟨ht, -, -⟩
    · rw [he] at hlead
      cases hlead
    · exact ht
  | applyTake =>
    simp only [event, applyTake] at h
    split at h
    · rename_i hidle
      split_ifs at h with hg
      simp only [not_or, Bool.not_eq_true, not_le] at hg
      split at h
      · rename_i e he
        obtain rfl := Option.some.inj h
        exact .take e hidle hg.1 hg.2 he
      · rename_i he
        obtain rfl := Option.some.inj h
        exact .fault hg.2 he
    · cases h
  | applyNotify =>
    simp only [event, applyNotify] at h
    split at h
    · rename_i hret
      split_ifs at h
      obtain rfl := Option.some.inj h
      exact .notify hret
    · cases h

end Process

/-- Nothing happens to a halted process. -/
theorem Process.event_running [DecidableEq ι] {cfg : NodeConfig ι} {p p' : Process ι F}
    {ev : RaftEvent ι F} (h : p.event cfg ev = some p') : p.halted = false := by
  by_contra hne
  rw [Bool.not_eq_false] at hne
  cases ev with
  | receiveVote response =>
    simp only [event, receiveVote, hne] at h
    split at h <;> simp at h
  | sendVoteRequest call =>
    simp only [event, sendVoteRequest, hne] at h
    split at h <;> simp at h
  | voteRequestFailed =>
    simp only [event, voteRequestFailed, hne] at h
    split at h <;> simp at h
  | applyTake =>
    simp only [event, applyTake, hne] at h
    split at h <;> simp at h
  | applyNotify =>
    simp only [event, applyNotify, hne] at h
    split at h <;> simp at h
  | startElection => simp [event, startElection, hne] at h
  | requestVote request => simp [event, handleRequestVote, hne] at h
  | replicate peer => simp [event, replicate, hne] at h
  | appendEntries request => simp [event, handleAppendEntries, hne] at h
  | receiveAppend peer sentTerm response => simp [event, receiveAppend, hne] at h

theorem EventChange.apply [DecidableEq ι] {cfg : NodeConfig ι} {p p' : Process ι F}
    (h : EventChange cfg p p') : ApplyChange p p' := by
  cases h with
  | node n election hlast hlead => exact .same rfl rfl hlast id
  | halt => exact .same rfl rfl rfl fun _ => rfl
  | take e hidle hrun hlt he => exact .take e hidle hrun hlt he rfl
  | fault hlt he => exact .fault hlt he rfl
  | notify hret => exact .notify hret rfl

/-- Events call nothing back, and a leader that stays leader keeps its log. -/
theorem EventChange.frame [DecidableEq ι] {cfg : NodeConfig ι} {p p' : Process ι F}
    (h : EventChange cfg p p') :
    p'.applied = p.applied ∧
      (p.node.state = .leader → p'.node.state = .leader → p'.node.log = p.node.log) := by
  cases h with
  | node n election hlast hlead => exact ⟨rfl, fun hs hs' => (hlead hs hs').1⟩
  | halt => exact ⟨rfl, fun _ _ => rfl⟩
  | take e hidle hrun hlt he => exact ⟨rfl, fun _ _ => rfl⟩
  | fault hlt he => exact ⟨rfl, fun _ _ => rfl⟩
  | notify hret => exact ⟨rfl, fun _ _ => rfl⟩

/-! ### The steps of a cluster are events -/

/-- The actions of the network and of the Raft threads by themselves. -/
def Action.isNetwork : Action ι F → Bool
  | .finishElection _ | .propose _ _ | .checkProposal _ _ | .appendLocalEntry _ _ => false
  | .applyReturn _ => false
  | _ => true

namespace Cluster

variable [DecidableEq ι] {c : ClusterConfig ι} {s s' : Cluster ι F} {a : Action ι F}

/-- A step of the network happens at one process, as an event. -/
theorem step_event (hnetwork : a.isNetwork = true) (h : s.step c a = some s') :
    s'.proposals = s.proposals ∧ ∃ i event p,
      (s.procs i).event (c.node i) event = some p ∧
        s'.procs = Function.update s.procs i p := by
  cases a with
  | startElection i =>
    obtain ⟨p, hp, rfl⟩ := Option.map_eq_some_iff.mp h
    exact ⟨rfl, i, .startElection, p, hp, rfl⟩
  | sendVoteRequest i =>
    obtain ⟨⟨p, peer, request⟩, hp, rfl⟩ := Option.map_eq_some_iff.mp h
    exact ⟨rfl, i, .sendVoteRequest s.voteCalls.length, p, by simp [Process.event, hp], rfl⟩
  | handleRequestVote k =>
    simp only [step, handleRequestVote] at h
    split at h
    · rename_i call hcall
      split_ifs at h
      obtain ⟨⟨p, response⟩, hp, rfl⟩ := Option.map_eq_some_iff.mp h
      exact ⟨rfl, call.callee, .requestVote call.request, p, by simp [Process.event, hp], rfl⟩
    · cases h
  | receiveVote i =>
    simp only [step, receiveVote] at h
    split at h
    · rename_i e he
      split at h
      · rename_i response hresponse
        split_ifs at h with hrun
        obtain ⟨k, hk, -⟩ := Option.bind_eq_some_iff.mp hresponse
        obtain ⟨w, hw, -⟩ := Option.bind_eq_some_iff.mp hk
        obtain rfl := Option.some.inj h
        refine ⟨rfl, i, .receiveVote response, _, ?_, rfl⟩
        simp [Process.event, Process.receiveVote, he, hw, hrun]
      · cases h
    · cases h
  | voteRequestFailed i =>
    obtain ⟨p, hp, rfl⟩ := Option.map_eq_some_iff.mp h
    exact ⟨rfl, i, .voteRequestFailed, p, hp, rfl⟩
  | replicate i peer =>
    obtain ⟨⟨p, request⟩, hp, rfl⟩ := Option.map_eq_some_iff.mp h
    exact ⟨rfl, i, .replicate peer, p, by simp [Process.event, hp], rfl⟩
  | handleAppendEntries k =>
    simp only [step, handleAppendEntries] at h
    split at h
    · rename_i call hcall
      split_ifs at h
      obtain ⟨⟨p, response⟩, hp, rfl⟩ := Option.map_eq_some_iff.mp h
      exact ⟨rfl, call.callee, .appendEntries call.request, p, by simp [Process.event, hp], rfl⟩
    · cases h
  | receiveAppend k =>
    simp only [step, receiveAppend] at h
    split at h
    · rename_i call hcall
      split at h
      · rename_i response hresponse
        split_ifs at h
        obtain ⟨p, hp, rfl⟩ := Option.map_eq_some_iff.mp h
        exact ⟨rfl, call.caller, .receiveAppend call.callee call.request.term response, p, hp, rfl⟩
      · cases h
    · cases h
  | applyTake i =>
    obtain ⟨p, hp, rfl⟩ := Option.map_eq_some_iff.mp h
    exact ⟨rfl, i, .applyTake, p, hp, rfl⟩
  | applyNotify i =>
    obtain ⟨p, hp, rfl⟩ := Option.map_eq_some_iff.mp h
    exact ⟨rfl, i, .applyNotify, p, hp, rfl⟩
  | _ => cases hnetwork

end Cluster

end DistributedLock.Raft
