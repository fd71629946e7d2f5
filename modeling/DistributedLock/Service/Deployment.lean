import DistributedLock.Library.Simulation
import DistributedLock.Service.Runs

/-! The deployment: every member of the cluster runs `dscc-node`, and the Raft layers of
the nodes talk to each other. A step is one of the network or of a Raft thread, as in a
cluster, or one of the other threads of a node. So the Raft layers go through a run of
the cluster, and each node through a run of its own, and what holds in all of those
holds here. -/

namespace DistributedLock.Service

open Library Raft Table

/-- Every node reads its own `THETA`. -/
structure DeploymentConfig (ι F : Type*) where
  cluster : ClusterConfig ι
  theta : ι → F

def DeploymentConfig.service {ι F : Type*} (cfg : DeploymentConfig ι F) (i : ι) :
    ServiceConfig ι F :=
  { node := cfg.cluster.node i, theta := cfg.theta i }

/-- The nodes, and the RPCs between their Raft layers. -/
structure Deployment (ι F : Type*) where
  nodes : ι → DsccNode ι F
  voteCalls : List (VoteCall ι) := []
  appendCalls : List (AppendCall ι F) := []

inductive DeploymentAction (ι F : Type*) where
  | network (a : Raft.Action ι F)
  | node (i : ι) (a : Action ι F)

/-- The actions of the threads of a node that are not Raft threads. -/
def Action.isService {ι F : Type*} : Action ι F → Bool
  | .raftEvent _ => false
  | _ => true

namespace Deployment

variable {ι F : Type*}

/-- The Raft layers of the nodes. -/
def cluster (s : Deployment ι F) : Cluster ι F :=
  { procs := fun i => (s.nodes i).raft, voteCalls := s.voteCalls, appendCalls := s.appendCalls }

/-- The deployment after a step of the Raft layers. -/
def withCluster (s : Deployment ι F) (t : Cluster ι F) : Deployment ι F :=
  { nodes := fun i => { s.nodes i with raft := t.procs i }
    voteCalls := t.voteCalls
    appendCalls := t.appendCalls }

variable [DecidableEq ι] [Arithmetic F]

def setNode (s : Deployment ι F) (i : ι) (n : DsccNode ι F) : Deployment ι F :=
  { s with nodes := Function.update s.nodes i n }

def step (cfg : DeploymentConfig ι F) (s : Deployment ι F) :
    DeploymentAction ι F → Option (Deployment ι F)
  | .network a =>
    if a.isNetwork then (s.cluster.step cfg.cluster a).map s.withCluster else none
  | .node i a =>
    if a.isService then ((s.nodes i).step (cfg.service i) a).map (s.setNode i) else none

omit [DecidableEq ι] in
def start (cfg : DeploymentConfig ι F) : Deployment ι F :=
  { nodes := fun i => DsccNode.start (cfg.service i) }

def system (cfg : DeploymentConfig ι F) : System (Deployment ι F) (DeploymentAction ι F) where
  init := start cfg
  step := step cfg

/-! ### Steps -/

omit [DecidableEq ι] [Arithmetic F] in
theorem cluster_withCluster (s : Deployment ι F) {t : Cluster ι F} (h : t.proposals = []) :
    (s.withCluster t).cluster = t := by
  obtain ⟨procs, voteCalls, appendCalls, proposals⟩ := t
  obtain rfl : proposals = [] := h
  rfl

omit [Arithmetic F] in
theorem cluster_setNode (s : Deployment ι F) (i : ι) (n : DsccNode ι F) :
    (s.setNode i n).cluster = s.cluster.setProc i n.raft := by
  simp only [cluster, setNode, Cluster.setProc, Cluster.mk.injEq, and_true]
  funext j
  rcases eq_or_ne j i with rfl | hj
  · simp
  · simp [hj]

omit [Arithmetic F] in
theorem cluster_setNode_of_eq (s : Deployment ι F) {i : ι} {n : DsccNode ι F}
    (h : n.raft = (s.nodes i).raft) : (s.setNode i n).cluster = s.cluster := by
  rw [cluster_setNode, h]
  simp only [Cluster.setProc, cluster, Function.update_eq_self_iff, Cluster.mk.injEq, and_true]

variable {cfg : DeploymentConfig ι F} {s s' : Deployment ι F}

theorem network_cases {a : Raft.Action ι F} (h : s.step cfg (.network a) = some s') :
    a.isNetwork = true ∧ s.cluster.step cfg.cluster a = some s'.cluster ∧
      s' = s.withCluster s'.cluster := by
  simp only [step] at h
  split_ifs at h with hnetwork
  obtain ⟨t, ht, rfl⟩ := Option.map_eq_some_iff.mp h
  have hproposals : t.proposals = [] := (Cluster.step_event hnetwork ht).1
  rw [cluster_withCluster s hproposals]
  exact ⟨hnetwork, ht, rfl⟩

theorem node_cases {i : ι} {a : Action ι F} (h : s.step cfg (.node i a) = some s') :
    a.isService = true ∧ ∃ n, (s.nodes i).step (cfg.service i) a = some n ∧
      s' = s.setNode i n := by
  simp only [step] at h
  split_ifs at h with hservice
  obtain ⟨n, hn, rfl⟩ := Option.map_eq_some_iff.mp h
  exact ⟨hservice, n, hn, rfl⟩

/-! ### The Raft layers go through a run of the cluster -/

end Deployment

/-- What the other threads of a node do to its Raft process. -/
theorem DsccNode.raft_cases {ι F : Type*} [DecidableEq ι] [Arithmetic F] {cfg : ServiceConfig ι F}
    {n n' : DsccNode ι F} {a : Action ι F} (ha : a.isService = true)
    (h : n.step cfg a = some n') :
    n'.raft = n.raft ∨ n.raft.finishElection = some n'.raft ∨
      n.raft.applyReturn = some n'.raft ∨ ∃ e, n.raft.append cfg.node e = some n'.raft := by
  obtain ⟨hrun, hstep⟩ := step_cases h
  have happend : n.raft.node.state = .leader → ∀ e,
      n.raft.append cfg.node e = some (appended cfg.node n.raft e) := fun hlead e =>
    ((append_cases cfg.node hrun e).resolve_right fun hn => hn.1 hlead).2
  cases hstep with
  | raftEvent event p hchange => cases ha
  | finishElection sweeps hsweeps =>
    rw [step, if_neg (by simp [hrun])] at h
    obtain ⟨p, hp, he⟩ := Option.map_eq_some_iff.mp h
    exact Or.inr (Or.inl (hp.trans (congrArg some (DsccNode.mk.inj he).1)))
  | onCommit layout m e hphase =>
    exact Or.inr (Or.inr (Or.inl (by simp [Process.applyReturn, hphase, hrun])))
  | acquireGuard request now => exact Or.inl rfl
  | releaseGuard agentId => exact Or.inl rfl
  | acquire k x c p t c' hk hopen hmove =>
    cases hmove with
    | appendAcquire index hlead => exact Or.inr (Or.inr (Or.inr ⟨_, happend hlead _⟩))
    | appendRelease c' hlead => exact Or.inr (Or.inr (Or.inr ⟨_, happend hlead _⟩))
    | _ => exact Or.inl rfl
  | release k x p releases hp =>
    rcases hp with rfl | ⟨hlead, e, rfl⟩
    · exact Or.inl rfl
    · exact Or.inr (Or.inr (Or.inr ⟨_, happend hlead _⟩))
  | sweep k x w p t w' hk hmove =>
    cases hmove with
    | stay => exact Or.inl rfl
    | propose agentId orphans w' hlead => exact Or.inr (Or.inr (Or.inr ⟨_, happend hlead _⟩))

namespace Deployment

variable {ι F : Type*} [DecidableEq ι] [Arithmetic F] {cfg : DeploymentConfig ι F}
  {s s' : Deployment ι F}

/-- A step of another thread is none of the cluster, or one that is not the network's. -/
theorem node_cluster {i : ι} {a : Action ι F} (h : s.step cfg (.node i a) = some s') :
    s'.cluster = s.cluster ∨
      ∃ b, b.isNetwork = false ∧ s.cluster.step cfg.cluster b = some s'.cluster := by
  obtain ⟨ha, n, hn, rfl⟩ := node_cases h
  rcases DsccNode.raft_cases ha hn with hsame | hp | hp | ⟨e, hp⟩
  · exact Or.inl (cluster_setNode_of_eq s hsame)
  · exact Or.inr ⟨.finishElection i, rfl, Option.map_eq_some_iff.mpr
      ⟨_, hp, (cluster_setNode s i n).symm⟩⟩
  · exact Or.inr ⟨.applyReturn i, rfl, Option.map_eq_some_iff.mpr
      ⟨_, hp, (cluster_setNode s i n).symm⟩⟩
  · exact Or.inr ⟨.appendLocalEntry i e, rfl, Option.map_eq_some_iff.mpr
      ⟨_, hp, (cluster_setNode s i n).symm⟩⟩

/-- Each step of a deployment is one step of the cluster, or none. -/
theorem simulates_cluster (cfg : DeploymentConfig ι F) :
    (Cluster.system cfg.cluster).Simulates (system cfg) fun s t => t = s.cluster := by
  refine .of_step rfl ?_
  rintro s t a s' rfl hstep
  cases a with
  | network a => exact Or.inr ⟨a, _, (network_cases hstep).2.1, rfl⟩
  | node i a =>
    rcases node_cluster hstep with hsame | ⟨b, -, hb⟩
    · exact Or.inl hsame.symm
    · exact Or.inr ⟨b, _, hb, rfl⟩

/-! ### Each node goes through a run of its own -/

/-- A step changes a node by an action of its own threads, or by a Raft event whose
contents are the network's. -/
theorem node_step {d : DeploymentAction ι F} (h : s.step cfg d = some s') (i : ι) :
    s'.nodes i = s.nodes i ∨ ∃ a, (s.nodes i).step (cfg.service i) a = some (s'.nodes i) ∧
      (a.isService = false ∨ d = .node i a) := by
  cases d with
  | network a =>
    obtain ⟨hnetwork, hstep, hs'⟩ := network_cases h
    obtain ⟨-, j, event, p, hp, hprocs⟩ := Cluster.step_event hnetwork hstep
    have hraft : s'.nodes i = { s.nodes i with raft := s'.cluster.procs i } := by
      conv_lhs => rw [hs']
      rfl
    rw [hprocs] at hraft
    rcases eq_or_ne i j with rfl | hne
    · refine Or.inr ⟨.raftEvent event, ?_, Or.inl rfl⟩
      rw [hraft, Function.update_self]
      have hrun : (s.nodes i).raft.halted = false := Process.event_running hp
      rw [DsccNode.step, if_neg (by simp [hrun])]
      exact Option.map_eq_some_iff.mpr ⟨p, hp, rfl⟩
    · refine Or.inl ?_
      rw [hraft, Function.update_of_ne hne]
      rfl
  | node j a =>
    obtain ⟨-, n, hn, rfl⟩ := node_cases h
    rcases eq_or_ne i j with rfl | hne
    · refine Or.inr ⟨a, ?_, Or.inr rfl⟩
      simpa [setNode] using hn
    · refine Or.inl ?_
      simp [setNode, hne]

/-- Each step of a deployment is one step of the node, or none. -/
theorem simulates_node (cfg : DeploymentConfig ι F) (i : ι) :
    (DsccNode.system (cfg.service i)).Simulates (system cfg) fun s n => n = s.nodes i := by
  refine .of_step rfl ?_
  rintro s n d s' rfl hstep
  rcases node_step hstep i with hsame | ⟨a, ha, -⟩
  · exact Or.inl hsame.symm
  · exact Or.inr ⟨a, _, ha, rfl⟩

/-- The Raft layers of a deployment go through a run of the cluster, and each node goes
through a run of `dscc-node`. -/
theorem layers_run (cfg : DeploymentConfig ι F) (as : List (DeploymentAction ι F))
    (s : Deployment ι F) (h : (system cfg).exec as = some s) :
    (∃ bs, (Cluster.system cfg.cluster).exec bs = some s.cluster) ∧
      ∀ i, ∃ bs, (DsccNode.system (cfg.service i)).exec bs = some (s.nodes i) := by
  constructor
  · obtain ⟨bs, t, hbs, rfl⟩ := (simulates_cluster cfg).exec h
    exact ⟨bs, hbs⟩
  · intro i
    obtain ⟨bs, n, hbs, rfl⟩ := (simulates_node cfg i).exec h
    exact ⟨bs, hbs⟩

end Deployment

/-! ### A deployment at work -/

/-- The three nodes of the tests, for vectors with whole components. -/
def DeploymentConfig.test : DeploymentConfig (Fin 3) ℤ where
  cluster := .testNodes
  theta _ := 1

namespace Deployment

/-- Node 1 wins an election with the vote of node 2. -/
def electionRun : List (DeploymentAction (Fin 3) ℤ) :=
  [.network (.startElection 0), .network (.sendVoteRequest 0), .network (.handleRequestVote 0),
    .network (.receiveVote 0), .node 0 .finishElection]

/-- The apply thread of a node for one entry. -/
def applyNext (i : Fin 3) : List (DeploymentAction (Fin 3) ℤ) :=
  [.network (.applyTake i), .node i (.onCommit .newest), .network (.applyNotify i)]

/-- A leader replicates its log to a follower by the RPC of that number. -/
def replicateTo (i j : Fin 3) (call : ℕ) : List (DeploymentAction (Fin 3) ℤ) :=
  [.network (.replicate i j), .network (.handleAppendEntries call), .network (.receiveAppend call)]

/-- The first call of a node goes on. -/
def advance (i : Fin 3) (steps : ℕ) : List (DeploymentAction (Fin 3) ℤ) :=
  List.replicate steps (.node i (.acquire 0 {}))

/-- An agent asks node 1 for a lock, and its session goes as far as its Qdrant operation. -/
def sessionRun : List (DeploymentAction (Fin 3) ℤ) :=
  electionRun ++ .node 0 (.acquireGuard ⟨"a", [1, 0], .write⟩ 0) :: advance 0 4 ++
    replicateTo 0 1 0 ++ applyNext 0 ++ advance 0 2

theorem layers_run_session :
    ∃ s : Deployment (Fin 3) ℤ, (system .test).exec sessionRun = some s ∧
      (∃ c ∈ (s.nodes 0).acquires, c.inQdrantPhase = true) ∧
      (∃ bs, (Cluster.system .testNodes).exec bs = some s.cluster) ∧
      ∃ bs, (DsccNode.system (DeploymentConfig.test.service 1)).exec bs = some (s.nodes 1) := by
  obtain ⟨s, hs, hc⟩ := (system .test).exists_exec sessionRun
    (fun s => ∃ c ∈ (s.nodes 0).acquires, c.inQdrantPhase = true) (by decide +kernel)
  obtain ⟨hcluster, hnode⟩ := layers_run .test sessionRun s hs
  exact ⟨s, hs, hc, hcluster, hnode 1⟩

end Deployment

end DistributedLock.Service
