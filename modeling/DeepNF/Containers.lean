import DeepNF.Traffic
import Mathlib.Logic.Function.Basic

/-!
# The containers of a machine (`setup_nodes`, `reset`)

Each run of `configure` builds an image and starts a container for every function of its machine; with `-r` it removes
the containers of these names first. No exit status is looked at: where a build fails, the container gets the image
that an earlier run has left under the tag, or there is none. `configure_reset` says which containers a run with `-r`
makes and when all of them come up, `configure_runs` from which run a container is.
-/

namespace DeepNF
open Std (TreeMap)

namespace Containers

/-- A container: from which `Dockerfile` its image was built, which port of the machine it has, and whether it has come
up. -/
structure Container where
  dockerfile : String
  logPort : Option Nat
  running : Bool
deriving DecidableEq, Repr

def PortTaken (containers : String → Option Container) (port : Nat) : Prop :=
  ∃ name c, containers name = some c ∧ c.running = true ∧ c.logPort = some port

/-- The docker daemon, and the Dockerfiles whose images it can build. A name is given once; a container whose port is
taken is made but does not come up. -/
structure Docker (δ : Type) where
  builds : String → Bool
  image : δ → String → Option String
  container : δ → String → Option Container
  build (tag dockerfile : String) : δ → δ
  run (name tag : String) (port : Option Nat) : δ → δ
  /-- `docker stop` and `docker rm`. -/
  remove (name : String) : δ → δ
  image_build : ∀ d tag dockerfile, image (build tag dockerfile d) =
    if builds dockerfile then Function.update (image d) tag (some dockerfile) else image d
  image_run : ∀ d name tag port, image (run name tag port d) = image d
  image_remove : ∀ d name, image (remove name d) = image d
  container_build : ∀ d tag dockerfile, container (build tag dockerfile d) = container d
  container_run_taken : ∀ d name tag port, container d name ≠ none ∨ image d tag = none →
    container (run name tag port d) = container d
  container_run_new : ∀ d name tag port dockerfile, container d name = none → image d tag = some dockerfile →
    ∃ running, container (run name tag port d) =
        Function.update (container d) name (some { dockerfile, logPort := port, running }) ∧
      (running = true ↔ ∀ p, port = some p → ¬ PortTaken (container d) p)
  container_remove : ∀ d name, container (remove name d) = Function.update (container d) name none

/-! ### A daemon -/

structure Daemon where
  images : TreeMap String String := ∅
  containers : TreeMap String Container := ∅

def Daemon.portTaken (s : Daemon) (port : Option Nat) : Bool :=
  s.containers.toList.any fun x => x.2.running && x.2.logPort == port && port.isSome

def Daemon.run (s : Daemon) (name tag : String) (port : Option Nat) : Daemon :=
  match s.containers[name]?, s.images[tag]? with
  | none, some dockerfile => { s with
      containers := s.containers.insert name { dockerfile, logPort := port, running := !s.portTaken port } }
  | _, _ => s

theorem Daemon.portTaken_iff {s : Daemon} {p : Nat} :
    s.portTaken (some p) = true ↔ PortTaken (fun name => s.containers[name]?) p := by
  rw [Daemon.portTaken, List.any_eq_true]
  constructor
  · rintro ⟨⟨name, c⟩, hx, h⟩
    rw [TreeMap.mem_toList_iff_getElem?_eq_some] at hx
    simp only [Bool.and_eq_true, beq_iff_eq] at h
    exact ⟨name, c, hx, h.1.1, h.1.2⟩
  · rintro ⟨name, c, hx, hrunning, hport⟩
    refine ⟨(name, c), TreeMap.mem_toList_iff_getElem?_eq_some.mpr hx, ?_⟩
    simp [hrunning, hport]

theorem update_getElem? {β : Type} (t : TreeMap String β) (name : String) (c : β) :
    (fun x => (t.insert name c)[x]?) = Function.update (fun x => t[x]?) name (some c) := by
  funext x
  rw [Function.update_apply, TreeMap.getElem?_insert]
  simp only [Std.LawfulEqOrd.compare_eq_iff_eq, eq_comm (a := x)]

theorem Daemon.run_images (s : Daemon) (name tag : String) (port : Option Nat) :
    (s.run name tag port).images = s.images := by
  unfold Daemon.run
  split <;> rfl

/-- A daemon on two maps. -/
def daemon (builds : String → Bool) : Docker Daemon where
  builds := builds
  image s tag := s.images[tag]?
  container s name := s.containers[name]?
  build tag dockerfile s := if builds dockerfile then { s with images := s.images.insert tag dockerfile } else s
  run name tag port s := s.run name tag port
  remove name s := { s with containers := s.containers.erase name }
  image_build d tag dockerfile := by
    split
    · exact update_getElem? ..
    · rfl
  image_run d name tag port := by rw [Daemon.run_images]
  image_remove _ _ := rfl
  container_build d tag dockerfile := by split <;> rfl
  container_run_taken d name tag port h := by
    unfold Daemon.run
    split
    · rename_i hname htag
      exact absurd h (not_or.mpr ⟨not_not_intro hname, htag ▸ Option.some_ne_none _⟩)
    · rfl
  container_run_new d name tag port dockerfile hnone himage := by
    refine ⟨!d.portTaken port, ?_, ?_⟩
    · unfold Daemon.run
      rw [hnone, himage]
      exact update_getElem? ..
    · cases port with
      | none => simp [Daemon.portTaken]
      | some p =>
        rw [Bool.not_eq_true', Bool.eq_false_iff, Ne, Daemon.portTaken_iff]
        exact ⟨fun h q hq => Option.some.inj hq ▸ h, fun h => h p rfl⟩
  container_remove d name := by
    funext x
    rw [Function.update_apply, TreeMap.getElem?_erase]
    simp only [Std.LawfulEqOrd.compare_eq_iff_eq, eq_comm (a := x)]

/-! ### `configure` -/

def getDockerfile (nf : NF) : String :=
  "DeepNF/src/runtime/nf_configs/" ++ match nf with
    | .dnfFirewall => "DnfFirewall/"
    | .dnfLoadbalancer => "DnfLoadBalancer/"
    | .proxy => "Proxy/"
    | .compressor => "Compressor/"
    | .pktgen => "pktgen/"

def pathToDockerfile (nf : NF) : String := "../../" ++ getDockerfile nf ++ "Dockerfile"

def imageName (id : Int) : String := getConfigDir id ++ "_img"

section
variable {δ : Type} (D : Docker δ)

/-- One pass of the loop of `setup_nodes`. -/
def setupNode (logPort : Nat) (d : δ) (node : RuntimeNode) : Nat × δ :=
  let containerName := getConfigDir node.id
  let built := D.build (imageName node.id) (pathToDockerfile node.nf) d
  -- the packet generator has no port for its log
  if node.nf = .pktgen then (logPort, D.run containerName (imageName node.id) none built)
  else (logPort + 1, D.run containerName (imageName node.id) (some (logPort + 1)) built)

def setupFrom : Nat → List RuntimeNode → δ → δ
  | _, [], d => d
  | logPort, node :: nodes, d =>
    setupFrom (setupNode D logPort d node).1 nodes (setupNode D logPort d node).2

def setupNodes (nodes : List RuntimeNode) (d : δ) : δ := setupFrom D 12000 nodes d

def reset (nodes : List RuntimeNode) (d : δ) : δ := nodes.foldl (fun d n => D.remove (getConfigDir n.id) d) d

/-- A run of `configure`. -/
structure Configure where
  needReset : Bool
  conf : MachineConfigurator

def configure (r : Configure) (d : δ) : δ :=
  setupNodes D r.conf.internalNodes (if r.needReset then reset D r.conf.internalNodes d else d)

end

/-- The functions that have a port for their log. -/
def logging (nodes : List RuntimeNode) : List RuntimeNode := nodes.filter (·.nf ≠ .pktgen)

def logPortFrom (logPort : Nat) (nodes : List RuntimeNode) (node : RuntimeNode) : Option Nat :=
  if node.nf = .pktgen then none else some (logPort + 1 + (logging nodes).idxOf node)

section
variable {δ : Type} {D : Docker δ} {d : δ} {nodes : List RuntimeNode} {node : RuntimeNode} {n : Nat}

/-! ### One container -/

theorem imageName_inj {v w : Int} (h : imageName v = imageName w) : v = w :=
  getConfigDir_inj (by simpa [imageName, ← String.toList_inj, String.toList_append] using h)

def Docker.built (D : Docker δ) (d : δ) (node : RuntimeNode) : Option String :=
  if D.builds (pathToDockerfile node.nf) then some (pathToDockerfile node.nf) else D.image d (imageName node.id)

theorem setupNode_port : (setupNode D n d node).1 = n + (logging [node]).length := by
  unfold setupNode logging
  by_cases h : node.nf = .pktgen <;> simp [h]

theorem image_setupNode : D.image (setupNode D n d node).2 =
    D.image (D.build (imageName node.id) (pathToDockerfile node.nf) d) := by
  unfold setupNode
  dsimp only
  split <;> rw [D.image_run]

theorem image_build_self : D.image (D.build (imageName node.id) (pathToDockerfile node.nf) d) (imageName node.id) =
    D.built d node := by
  rw [D.image_build, Docker.built]
  split
  · exact Function.update_self ..
  · rfl

theorem image_setupNode_of_ne {tag : String} (h : tag ≠ imageName node.id) :
    D.image (setupNode D n d node).2 tag = D.image d tag := by
  rw [image_setupNode, D.image_build]
  split
  · exact Function.update_of_ne h ..
  · rfl

theorem setupNode_kept (h : D.container d (getConfigDir node.id) ≠ none ∨ D.built d node = none) :
    D.container (setupNode D n d node).2 = D.container d := by
  rw [← image_build_self, ← D.container_build d (imageName node.id) (pathToDockerfile node.nf)] at h
  unfold setupNode
  dsimp only
  split <;> rw [D.container_run_taken _ _ _ _ h, D.container_build]

theorem setupNode_new (h : D.container d (getConfigDir node.id) = none) {dockerfile : String}
    (hbuilt : D.built d node = some dockerfile) :
    ∃ running, D.container (setupNode D n d node).2 = Function.update (D.container d) (getConfigDir node.id)
        (some { dockerfile, logPort := logPortFrom n [node] node, running }) ∧
      (running = true ↔ ∀ p, logPortFrom n [node] node = some p → ¬ PortTaken (D.container d) p) := by
  have hport : logPortFrom n [node] node = if node.nf = .pktgen then none else some (n + 1) := by
    unfold logPortFrom logging
    by_cases h : node.nf = .pktgen <;> simp [h]
  have hnew := fun port => D.container_run_new (D.build (imageName node.id) (pathToDockerfile node.nf) d)
    (getConfigDir node.id) (imageName node.id) port dockerfile (by rwa [D.container_build])
    (image_build_self.trans hbuilt)
  rw [hport]
  unfold setupNode
  dsimp only
  split
  · have hnone := hnew none
    rwa [D.container_build] at hnone
  · have hsome := hnew (some (n + 1))
    rwa [D.container_build] at hsome

theorem setupNode_cases (D : Docker δ) (d : δ) (node : RuntimeNode) :
    (D.container d (getConfigDir node.id) ≠ none ∨ D.built d node = none) ∨
      ∃ dockerfile, D.container d (getConfigDir node.id) = none ∧ D.built d node = some dockerfile := by
  by_cases hnone : D.container d (getConfigDir node.id) = none
  · cases hbuilt : D.built d node with
    | none => exact .inl (.inr rfl)
    | some dockerfile => exact .inr ⟨dockerfile, hnone, rfl⟩
  · exact .inl (.inl hnone)

theorem setupNode_of_ne {name : String} (h : name ≠ getConfigDir node.id) :
    D.container (setupNode D n d node).2 name = D.container d name := by
  rcases setupNode_cases D d node with hkept | ⟨dockerfile, hnone, hbuilt⟩
  · rw [setupNode_kept hkept]
  · obtain ⟨running, hc, -⟩ := setupNode_new (n := n) hnone hbuilt
    rw [hc, Function.update_of_ne h]

theorem lt_logPortFrom {p : Nat} (h : logPortFrom n nodes node = some p) : n < p := by
  unfold logPortFrom at h
  split at h
  · cases h
  · obtain rfl := Option.some.inj h
    omega

theorem logPortFrom_single {p : Nat} (h : logPortFrom n [node] node = some p) : p ≤ (setupNode D n d node).1 := by
  rw [setupNode_port]
  unfold logPortFrom at h
  split at h
  · cases h
  · rename_i hnf
    have hone : logging [node] = [node] := by simp [logging, hnf]
    rw [hone, List.idxOf_cons_self] at h
    obtain rfl := Option.some.inj h
    rw [hone]
    exact Nat.le_refl _

theorem portTaken_setupNode {p : Nat} (hp : (setupNode D n d node).1 < p) :
    PortTaken (D.container (setupNode D n d node).2) p ↔ PortTaken (D.container d) p := by
  rcases setupNode_cases D d node with hkept | ⟨dockerfile, hnone, hbuilt⟩
  · rw [setupNode_kept hkept]
  · constructor
    · rintro ⟨name, c, hc, hrunning, hport⟩
      by_cases hname : name = getConfigDir node.id
      · obtain ⟨running, hnew, -⟩ := setupNode_new (n := n) hnone hbuilt
        rw [hname, hnew, Function.update_self] at hc
        obtain rfl := Option.some.inj hc
        have hle := logPortFrom_single (D := D) (d := d) hport
        omega
      · exact ⟨name, c, by rwa [setupNode_of_ne hname] at hc, hrunning, hport⟩
    · rintro ⟨name, c, hc, hrunning, hport⟩
      have hname : name ≠ getConfigDir node.id := by
        rintro rfl
        cases hnone.symm.trans hc
      exact ⟨name, c, by rwa [setupNode_of_ne hname], hrunning, hport⟩

theorem built_setupNode {a : RuntimeNode} (h : node.id ≠ a.id) :
    D.built (setupNode D n d a).2 node = D.built d node := by
  rw [Docker.built, Docker.built, image_setupNode_of_ne fun he => h (imageName_inj he)]

theorem logPortFrom_head {l : List RuntimeNode} : logPortFrom n (node :: l) node = logPortFrom n [node] node := by
  unfold logPortFrom logging
  by_cases h : node.nf = .pktgen <;> simp [h]

theorem logPortFrom_tail {a : RuntimeNode} {l : List RuntimeNode} (hne : node ≠ a) :
    logPortFrom n (a :: l) node = logPortFrom (setupNode D n d a).1 l node := by
  rw [setupNode_port]
  by_cases h : a.nf = .pktgen
  · simp [logPortFrom, logging, h]
  · have hlogging : ∀ l, logging (a :: l) = a :: logging l := fun l => by simp [logging, h]
    have hnext : n + 1 + ((logging l).idxOf node + 1) = n + 1 + 1 + (logging l).idxOf node := by omega
    rw [logPortFrom, hlogging, List.idxOf_cons_ne _ hne.symm, hnext, hlogging]
    rfl

/-! ### The loop -/

/-- What `setup_nodes` makes of `d`: a name that is in use keeps its container, and without an image there is none. -/
structure SetUp (D : Docker δ) (logPort : Nat) (nodes : List RuntimeNode) (d d' : δ) : Prop where
  image : ∀ node ∈ nodes, D.image d' (imageName node.id) = D.built d node
  otherImage : ∀ tag, (∀ node ∈ nodes, tag ≠ imageName node.id) → D.image d' tag = D.image d tag
  other : ∀ name, (∀ node ∈ nodes, name ≠ getConfigDir node.id) → D.container d' name = D.container d name
  kept : ∀ node ∈ nodes, D.container d (getConfigDir node.id) ≠ none ∨ D.built d node = none →
    D.container d' (getConfigDir node.id) = D.container d (getConfigDir node.id)
  made : ∀ node ∈ nodes, D.container d (getConfigDir node.id) = none → ∀ dockerfile,
    D.built d node = some dockerfile → ∃ running, D.container d' (getConfigDir node.id) =
        some { dockerfile, logPort := logPortFrom logPort nodes node, running } ∧
      (running = true ↔ ∀ p, logPortFrom logPort nodes node = some p → ¬ PortTaken (D.container d) p)

theorem setupFrom_ok (hids : (nodes.map (·.id)).Nodup) : SetUp D n nodes d (setupFrom D n nodes d) := by
  induction nodes generalizing n d with
  | nil => exact ⟨nofun, fun _ _ => rfl, fun _ _ => rfl, nofun, nofun⟩
  | cons a l ih =>
    rw [List.map_cons, List.nodup_cons] at hids
    have hid : ∀ node ∈ l, node.id ≠ a.id := fun node hn he => hids.1 (List.mem_map.mpr ⟨node, hn, he⟩)
    have hdir : ∀ node ∈ l, getConfigDir node.id ≠ getConfigDir a.id :=
      fun node hn he => hid node hn (getConfigDir_inj he)
    have htag : ∀ node ∈ l, imageName a.id ≠ imageName node.id :=
      fun node hn he => hid node hn (imageName_inj he).symm
    have hrest := ih (n := (setupNode D n d a).1) (d := (setupNode D n d a).2) hids.2
    have hfirst := hrest.other (getConfigDir a.id) fun node hn he => hdir node hn he.symm
    rw [setupFrom]
    refine ⟨fun node hn => ?_, fun tag htags => ?_, fun name hname => ?_, fun node hn h => ?_,
      fun node hn hnone dockerfile hbuilt => ?_⟩
    · rcases List.mem_cons.mp hn with rfl | hn
      · rw [hrest.otherImage _ htag, image_setupNode, image_build_self]
      · rw [hrest.image node hn, built_setupNode (hid node hn)]
    · rw [hrest.otherImage tag fun node hn => htags node (List.mem_cons_of_mem _ hn),
        image_setupNode_of_ne (htags a (List.mem_cons_self ..))]
    · rw [hrest.other name fun node hn => hname node (List.mem_cons_of_mem _ hn),
        setupNode_of_ne (hname a (List.mem_cons_self ..))]
    · rcases List.mem_cons.mp hn with rfl | hn
      · rw [hfirst, setupNode_kept h]
      · rw [← setupNode_of_ne (hdir node hn) (n := n), ← built_setupNode (hid node hn) (n := n)] at h
        rw [hrest.kept node hn h, setupNode_of_ne (hdir node hn)]
    · rcases List.mem_cons.mp hn with rfl | hn
      · obtain ⟨running, hnew, hiff⟩ := setupNode_new (n := n) hnone hbuilt
        refine ⟨running, ?_, by rwa [logPortFrom_head]⟩
        rw [hfirst, hnew, Function.update_self, logPortFrom_head (l := l)]
      · obtain ⟨running, hnew, hiff⟩ := hrest.made node hn (by rwa [setupNode_of_ne (hdir node hn)]) dockerfile
          (by rwa [built_setupNode (hid node hn)])
        have hne : node ≠ a := fun he => hid node hn (by rw [he])
        rw [logPortFrom_tail hne]
        refine ⟨running, hnew, hiff.trans (forall_congr' fun p => imp_congr_right fun hp => not_congr ?_)⟩
        exact portTaken_setupNode (lt_logPortFrom hp)

theorem image_reset : D.image (reset D nodes d) = D.image d := by
  induction nodes generalizing d with
  | nil => rfl
  | cons a l ih =>
    rw [reset, List.foldl_cons]
    exact ih.trans (D.image_remove ..)

theorem reset_of_notMem {name : String} (h : ∀ node ∈ nodes, name ≠ getConfigDir node.id) :
    D.container (reset D nodes d) name = D.container d name := by
  induction nodes generalizing d with
  | nil => rfl
  | cons a l ih =>
    rw [reset, List.foldl_cons]
    refine (ih fun node hn => h node (List.mem_cons_of_mem _ hn)).trans ?_
    rw [D.container_remove, Function.update_of_ne (h a (List.mem_cons_self ..))]

theorem reset_eq_none {name : String} (h : D.container d name = none ∨ ∃ node ∈ nodes, name = getConfigDir node.id) :
    D.container (reset D nodes d) name = none := by
  induction nodes generalizing d with
  | nil => exact h.resolve_right (by rintro ⟨node, hn, -⟩; cases hn)
  | cons a l ih =>
    rw [reset, List.foldl_cons]
    refine ih ?_
    rw [D.container_remove]
    by_cases hname : name = getConfigDir a.id
    · exact .inl (by rw [hname, Function.update_self])
    · rw [Function.update_of_ne hname]
      rcases h with hnone | ⟨node, hn, he⟩
      · exact .inl hnone
      · rcases List.mem_cons.mp hn with rfl | hn
        · exact absurd he hname
        · exact .inr ⟨node, hn, he⟩

/-! ### A run of `configure` -/

variable {r : Configure}

theorem configure_setUp (D : Docker δ) (d : δ) (hids : (r.conf.internalNodes.map (·.id)).Nodup) :
    SetUp D 12000 r.conf.internalNodes (if r.needReset then reset D r.conf.internalNodes d else d)
      (configure D r d) := setupFrom_ok hids

theorem image_start : D.image (if r.needReset then reset D nodes d else d) = D.image d := by
  split
  · exact image_reset
  · rfl

theorem built_start : D.built (if r.needReset then reset D nodes d else d) node = D.built d node := by
  rw [Docker.built, image_start, ← Docker.built]

theorem configure_image (hids : (r.conf.internalNodes.map (·.id)).Nodup) (hn : node ∈ r.conf.internalNodes) :
    D.image (configure D r d) (imageName node.id) = D.built d node := by
  rw [(configure_setUp D d hids).image node hn, built_start]

theorem configure_otherImage (hids : (r.conf.internalNodes.map (·.id)).Nodup) {tag : String}
    (h : ∀ node ∈ r.conf.internalNodes, tag ≠ imageName node.id) :
    D.image (configure D r d) tag = D.image d tag := by
  rw [(configure_setUp D d hids).otherImage tag h, image_start]

theorem configure_other (hids : (r.conf.internalNodes.map (·.id)).Nodup) {name : String}
    (h : ∀ node ∈ r.conf.internalNodes, name ≠ getConfigDir node.id) :
    D.container (configure D r d) name = D.container d name := by
  rw [(configure_setUp D d hids).other name h]
  split
  · exact reset_of_notMem h
  · rfl

theorem configure_kept (hids : (r.conf.internalNodes.map (·.id)).Nodup) (hreset : r.needReset = false)
    (hn : node ∈ r.conf.internalNodes) (h : D.container d (getConfigDir node.id) ≠ none) :
    D.container (configure D r d) (getConfigDir node.id) = D.container d (getConfigDir node.id) := by
  have hkept := (configure_setUp D d hids).kept node hn
  rw [hreset, if_neg Bool.false_ne_true] at hkept
  exact hkept (.inl h)

theorem configure_made (hids : (r.conf.internalNodes.map (·.id)).Nodup) (hn : node ∈ r.conf.internalNodes)
    (h : r.needReset = true ∨ D.container d (getConfigDir node.id) = none) :
    (D.container (configure D r d) (getConfigDir node.id)).map (fun c => (c.dockerfile, c.logPort)) =
      (D.built d node).map (·, logPortFrom 12000 r.conf.internalNodes node) := by
  have hnone :
      D.container (if r.needReset then reset D r.conf.internalNodes d else d) (getConfigDir node.id) = none := by
    split
    · exact reset_eq_none (.inr ⟨node, hn, rfl⟩)
    · exact h.resolve_left ‹_›
  have hsetUp := configure_setUp D d hids
  cases hbuilt : D.built d node with
  | none =>
    rw [hsetUp.kept node hn (.inr (built_start.trans hbuilt)), hnone]
    rfl
  | some dockerfile =>
    obtain ⟨running, hc, -⟩ := hsetUp.made node hn hnone dockerfile (built_start.trans hbuilt)
    rw [hc]
    rfl

theorem exists_logPortFrom {p : Nat} (hnodup : nodes.Nodup) :
    (∃ node ∈ nodes, logPortFrom n nodes node = some p) ↔ n < p ∧ p ≤ n + (logging nodes).length := by
  constructor
  · rintro ⟨node, hn, hp⟩
    refine ⟨lt_logPortFrom hp, ?_⟩
    unfold logPortFrom at hp
    split at hp
    · cases hp
    · rename_i hnf
      have hmem : node ∈ logging nodes := List.mem_filter.mpr ⟨hn, by simpa using hnf⟩
      have hlt : (logging nodes).idxOf node < (logging nodes).length := List.idxOf_lt_length_of_mem hmem
      obtain rfl := Option.some.inj hp
      omega
  · rintro ⟨hlt, hle⟩
    have hk : p - (n + 1) < (logging nodes).length := by omega
    obtain ⟨hmem, hnf⟩ := List.mem_filter.mp ((logging nodes).getElem_mem hk)
    refine ⟨(logging nodes)[p - (n + 1)], hmem, ?_⟩
    have hnodup' : (logging nodes).Nodup := hnodup.filter _
    rw [logPortFrom, if_neg (by simpa using hnf), hnodup'.idxOf_getElem _ hk]
    exact congrArg some (by omega)

/-- A run with `-r`, whatever is there: other containers stay, and those of the machine's functions are new, each from
the image that it has now, if it has one. All functions have a container that is up if and only if each has an image
and no other container that is up has one of their ports. -/
theorem configure_reset (D : Docker δ) (d : δ) (r : Configure) (hreset : r.needReset = true)
    (hids : (r.conf.internalNodes.map (·.id)).Nodup) :
    (∀ name, (∀ node ∈ r.conf.internalNodes, name ≠ getConfigDir node.id) →
      D.container (configure D r d) name = D.container d name) ∧
    (∀ node ∈ r.conf.internalNodes,
      (D.container (configure D r d) (getConfigDir node.id)).map (fun c => (c.dockerfile, c.logPort)) =
        (D.built d node).map (·, logPortFrom 12000 r.conf.internalNodes node)) ∧
    ((∀ node ∈ r.conf.internalNodes, ∃ c, D.container (configure D r d) (getConfigDir node.id) = some c ∧
        c.running = true) ↔
      (∀ node ∈ r.conf.internalNodes, D.built d node ≠ none) ∧
      ∀ name c, (∀ node ∈ r.conf.internalNodes, name ≠ getConfigDir node.id) → D.container d name = some c →
        c.running = true → ∀ p, c.logPort = some p →
        ¬(12000 < p ∧ p ≤ 12000 + (logging r.conf.internalNodes).length)) := by
  refine ⟨fun name hname => configure_other hids hname, fun node hn => configure_made hids hn (.inl hreset), ?_⟩
  have hsetUp := configure_setUp D d hids
  rw [hreset, if_pos rfl] at hsetUp
  have hfree : ∀ node ∈ r.conf.internalNodes,
      D.container (reset D r.conf.internalNodes d) (getConfigDir node.id) = none :=
    fun node hn => reset_eq_none (.inr ⟨node, hn, rfl⟩)
  have hbuilt : ∀ node, D.built (reset D r.conf.internalNodes d) node = D.built d node := fun node => by
    rw [Docker.built, image_reset, ← Docker.built]
  constructor
  · intro hup
    have himage : ∀ node ∈ r.conf.internalNodes, D.built d node ≠ none := by
      intro node hn hnone
      obtain ⟨c, hc, -⟩ := hup node hn
      rw [hsetUp.kept node hn (.inr ((hbuilt node).trans hnone)), hfree node hn] at hc
      cases hc
    refine ⟨himage, fun name c hname hc hrunning p hp hrange => ?_⟩
    -- the function with this port has not come up
    obtain ⟨node, hn, hport⟩ := (exists_logPortFrom hids.of_map).mpr hrange
    obtain ⟨dockerfile, hdockerfile⟩ := Option.ne_none_iff_exists'.mp (himage node hn)
    obtain ⟨running, hnew, hiff⟩ := hsetUp.made node hn (hfree node hn) dockerfile ((hbuilt node).trans hdockerfile)
    obtain ⟨c', hc', hup'⟩ := hup node hn
    obtain rfl := Option.some.inj (hnew.symm.trans hc')
    exact hiff.mp hup' p hport ⟨name, c, (reset_of_notMem hname).trans hc, hrunning, hp⟩
  · rintro ⟨himage, hothers⟩ node hn
    obtain ⟨dockerfile, hdockerfile⟩ := Option.ne_none_iff_exists'.mp (himage node hn)
    obtain ⟨running, hnew, hiff⟩ := hsetUp.made node hn (hfree node hn) dockerfile ((hbuilt node).trans hdockerfile)
    refine ⟨_, hnew, hiff.mpr fun p hport => ?_⟩
    rintro ⟨name, c, hstale, hrunning, hp⟩
    have hname : ∀ x ∈ r.conf.internalNodes, name ≠ getConfigDir x.id := by
      rintro x hx rfl
      rw [hfree x hx] at hstale
      cases hstale
    rw [reset_of_notMem hname] at hstale
    exact hothers name c hname hstale hrunning p hp ((exists_logPortFrom hids.of_map).mp ⟨node, hn, hport⟩)

def machineWith (node : RuntimeNode) : MachineConfigurator :=
  (MachineConfigurator.new { id := 0, nodes := [node.id] }).addNode { node with machineId := 0 }

def oneFunction (needReset : Bool) (nf : NF) : Configure := ⟨needReset, machineWith { id := 1, nf }⟩

/-- `pkt_receiver.cpp` includes a file that the `Dockerfile` of the packet generator does not copy to where it is looked
for. -/
def allButPktgen (dockerfile : String) : Bool := dockerfile ≠ pathToDockerfile .pktgen

def compressorContainer : Container where
  dockerfile := pathToDockerfile .compressor
  logPort := some 12001
  running := true

def leftOver : Daemon where
  containers := .ofList [("c7", compressorContainer)]

theorem configure_reset_leftOver : ¬ ∀ node ∈ (oneFunction true .proxy).conf.internalNodes, ∃ c,
    (daemon allButPktgen).container (configure (daemon allButPktgen) (oneFunction true .proxy) leftOver)
      (getConfigDir node.id) = some c ∧ c.running = true := by
  intro hup
  obtain ⟨-, -, hiff⟩ := configure_reset (daemon allButPktgen) leftOver (oneFunction true .proxy) rfl (by decide)
  exact (hiff.mp hup).2 "c7" compressorContainer (by decide) (by decide) rfl 12001 rfl (by decide)

/-! ### Every sequence of runs -/

/-- The runs of `configure` on a machine, one after the other. -/
def runs (D : Docker δ) (l : List Configure) (d : δ) : δ := l.foldl (fun d r => configure D r d) d

def Configure.node? (r : Configure) (v : Int) : Option RuntimeNode := r.conf.internalNodes.find? (·.id = v)

section
variable (builds : String → Bool) (v : Int)

/-- The image of `v` after a run. -/
def Configure.image (r : Configure) (image : Option String) : Option String :=
  match r.node? v with
  | some node => if builds (pathToDockerfile node.nf) then some (pathToDockerfile node.nf) else image
  | none => image

/-- The runs that have `v` and an image for it, each with what it would make. -/
def products : Option String → List Configure → List (Configure × String × Option Nat)
  | _, [] => []
  | image, r :: l =>
    ((r.node? v).bind fun node => (r.image builds v image).map fun dockerfile =>
      (r, dockerfile, logPortFrom 12000 r.conf.internalNodes node)).toList ++ products (r.image builds v image) l

/-- Of these the last one with `-r`, or else the first one. -/
def product (image : Option String) (l : List Configure) : Option (String × Option Nat) :=
  let having := products builds v image l
  (((having.filter (·.1.needReset)).getLast?).or having.head?).map (·.2)

end

section
variable {builds : String → Bool} {v : Int} {image : Option String} {l : List Configure} {made : String × Option Nat}

def imageAfter (builds : String → Bool) (v : Int) (image : Option String) (l : List Configure) : Option String :=
  l.foldl (fun image r => r.image builds v image) image

theorem products_append : products builds v image (l ++ [r]) =
    products builds v image l ++ products builds v (imageAfter builds v image l) [r] := by
  induction l generalizing image with
  | nil => rfl
  | cons a l ih =>
    rw [List.cons_append, products, ih, ← List.append_assoc]
    rfl

theorem Configure.image_eq_none (h : r.image builds v image = none) : image = none := by
  unfold Configure.image at h
  split at h
  · split at h
    · cases h
    · exact h
  · exact h

theorem imageAfter_eq_none (h : imageAfter builds v image l = none) :
    image = none ∧ products builds v image l = [] := by
  induction l generalizing image with
  | nil => exact ⟨h, rfl⟩
  | cons a l ih =>
    obtain ⟨hnone, hnil⟩ : a.image builds v image = none ∧ products builds v (a.image builds v image) l = [] := ih h
    refine ⟨Configure.image_eq_none hnone, ?_⟩
    rw [products, hnil, hnone]
    cases a.node? v <;> rfl

theorem product_of_nil (h : products builds v image l = []) : product builds v image l = none := by
  rw [product, h]
  rfl

theorem product_append_nil (h : products builds v (imageAfter builds v image l) [r] = []) :
    product builds v image (l ++ [r]) = product builds v image l := by
  rw [product, products_append, h, List.append_nil]
  rfl

theorem product_append_reset (hreset : r.needReset = true)
    (h : products builds v (imageAfter builds v image l) [r] = [(r, made)]) :
    product builds v image (l ++ [r]) = some made := by
  have hlast : [(r, made)].filter (·.1.needReset) = [(r, made)] := by simp [hreset]
  rw [product, products_append, h, List.filter_append, hlast, List.getLast?_append_cons]
  rfl

theorem product_append_keep (hreset : r.needReset = false)
    (h : products builds v (imageAfter builds v image l) [r] = [(r, made)]) :
    product builds v image (l ++ [r]) = (product builds v image l).or (some made) := by
  have hnot : [(r, made)].filter (·.1.needReset) = [] := by simp [hreset]
  rw [product, products_append, h, List.filter_append, hnot, List.append_nil, List.head?_append, ← Option.or_assoc,
    Option.map_or]
  rfl

end

theorem image_configure (hids : (r.conf.internalNodes.map (·.id)).Nodup) (v : Int) :
    D.image (configure D r d) (imageName v) = r.image D.builds v (D.image d (imageName v)) := by
  rw [Configure.image]
  cases hnode : r.node? v with
  | none =>
    refine configure_otherImage hids fun node hn he => ?_
    exact List.find?_eq_none.mp hnode node hn (by simpa using (imageName_inj he).symm)
  | some node =>
    obtain rfl : node.id = v := by simpa using List.find?_some hnode
    exact configure_image hids (List.mem_of_find?_eq_some hnode)

theorem image_runs {l : List Configure} (hids : ∀ r ∈ l, (r.conf.internalNodes.map (·.id)).Nodup) (v : Int) :
    D.image (runs D l d) (imageName v) = imageAfter D.builds v (D.image d (imageName v)) l := by
  induction l generalizing d with
  | nil => rfl
  | cons r l ih =>
    rw [List.forall_mem_cons] at hids
    exact (ih hids.2).trans (congrArg (imageAfter D.builds v · l) (image_configure hids.1 v))

/-- After any runs, the container of a node is what the last run with `-r` that had an image for it has made, or else
the first run that had one: without `-r` a container stays although the function is another one, and a function whose
build fails gets the image of an earlier one. -/
theorem configure_runs (D : Docker δ) (d : δ) (hd : ∀ name, D.container d name = none) (l : List Configure)
    (hids : ∀ r ∈ l, (r.conf.internalNodes.map (·.id)).Nodup) (v : Int) :
    (D.container (runs D l d) (getConfigDir v)).map (fun c => (c.dockerfile, c.logPort)) =
      product D.builds v (D.image d (imageName v)) l := by
  induction l using List.reverseRecOn with
  | nil => rw [runs, List.foldl_nil, hd]; rfl
  | append_singleton l r ih =>
    obtain ⟨hl, hr⟩ := List.forall_mem_append.mp hids
    have ih := ih hl
    have hr := hr r (List.mem_singleton_self r)
    have himage := image_runs (D := D) (d := d) hl v
    have hstep : runs D (l ++ [r]) d = configure D r (runs D l d) := List.foldl_append ..
    rw [hstep]
    cases hnode : r.node? v with
    | none =>
      -- the run does not have the node
      have hother : ∀ node ∈ r.conf.internalNodes, getConfigDir v ≠ getConfigDir node.id := fun node hn he =>
        List.find?_eq_none.mp hnode node hn (by simpa using (getConfigDir_inj he).symm)
      rw [product_append_nil (by rw [products, hnode]; rfl), ← ih, configure_other hr hother]
    | some node =>
      have hn := List.mem_of_find?_eq_some hnode
      obtain rfl : node.id = v := by simpa using List.find?_some hnode
      have hafter : r.image D.builds node.id (imageAfter D.builds node.id (D.image d (imageName node.id)) l) =
          D.built (runs D l d) node := by
        rw [← himage, Configure.image, hnode]
        rfl
      have hlast : products D.builds node.id (imageAfter D.builds node.id (D.image d (imageName node.id)) l) [r] =
          ((D.built (runs D l d) node).map fun dockerfile =>
            (r, dockerfile, logPortFrom 12000 r.conf.internalNodes node)).toList := by
        rw [products, hnode, hafter]
        exact List.append_nil _
      cases hbuilt : D.built (runs D l d) node with
      | none =>
        -- there has been no image yet, and so no container
        rw [hbuilt] at hafter hlast
        obtain ⟨-, hnil⟩ := imageAfter_eq_none (Configure.image_eq_none hafter)
        rw [product_of_nil hnil, Option.map_eq_none_iff] at ih
        rw [product_append_nil hlast, product_of_nil hnil, configure_made hr hn (.inr ih), hbuilt]
        rfl
      | some dockerfile =>
        rw [hbuilt] at hlast
        cases hreset : r.needReset with
        | true =>
          rw [product_append_reset hreset hlast, configure_made hr hn (.inl hreset), hbuilt]
          rfl
        | false =>
          rw [product_append_keep hreset hlast, ← ih]
          by_cases hnone : D.container (runs D l d) (getConfigDir node.id) = none
          · rw [configure_made hr hn (.inr hnone), hbuilt, hnone]
            rfl
          · obtain ⟨c, hc⟩ := Option.ne_none_iff_exists'.mp hnone
            rw [configure_kept hr hreset hn hnone, hc]
            rfl

/-- Without `-r` the container of the first run stays, and with it its function. The packet generator gets the image
of the proxy, since its own cannot be built. -/
theorem configure_runs_kept :
    ((daemon allButPktgen).container (runs (daemon allButPktgen)
        [oneFunction false .compressor, oneFunction false .proxy] {}) (getConfigDir 1)).map
      (fun c => (c.dockerfile, c.logPort)) = some (pathToDockerfile .compressor, some 12001) ∧
    ((daemon allButPktgen).container (runs (daemon allButPktgen)
        [oneFunction false .pktgen, oneFunction false .proxy, oneFunction true .pktgen] {}) (getConfigDir 1)).map
      (fun c => (c.dockerfile, c.logPort)) = some (pathToDockerfile .proxy, none) := by
  constructor
  · exact (configure_runs (daemon allButPktgen) {} (fun _ => TreeMap.getElem?_emptyc)
      [oneFunction false .compressor, oneFunction false .proxy] (by decide) 1).trans (by decide)
  · exact (configure_runs (daemon allButPktgen) {} (fun _ => TreeMap.getElem?_emptyc)
      [oneFunction false .pktgen, oneFunction false .proxy, oneFunction true .pktgen] (by decide) 1).trans (by decide)

end
end Containers
end DeepNF
