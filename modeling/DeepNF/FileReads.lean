import DeepNF.Flood
import DeepNF.TreeMaps
import DeepNF.Utf8

/-!
# Reading the log files for a page (`readFiles`, `readGraph` in `src/webserver/routes/routes.js`)

`readFiles` lists each folder and reads each file with a callback of its own, and the callbacks come in any order. It
puts what a file has under the name of its folder, and renders the page at each file after which there are as many names
as folders. `readFiles_once`: whatever the order, a page that is rendered has an entry for each folder; but the page is
rendered once in every order if and only if there are no folders or each of them has exactly one file, and a name that
an object takes as a key. `readGraph` names its files themselves, so there every order gives the page once
(`showVisualization_once`).
-/

namespace DeepNF
open Std (TreeMap)
open Flood

/-- A row of a page; `none` is `undefined`. -/
structure LogRecord where
  time : Option String
  packetID : Option String
  function : Option String
  action : Option String
deriving DecidableEq, Repr

def logRecord (line : List Char) : LogRecord :=
  let dataArray := (line.splitOn ',').map String.ofList
  { time := dataArray[0]?, packetID := dataArray[1]?, function := dataArray[2]?, action := dataArray[3]? }

/-- `content_object` for one file, in the order of its keys. -/
def logRecords (content : List UInt8) : List LogRecord := ((Utf8.decode content).splitOn '\n').map logRecord

/-- A folder with its files and what is in them. -/
structure Folder where
  name : String
  files : List (String × List UInt8)

/-- The directory with the logs. Names in a directory are different. -/
structure LogDirectory where
  folders : List Folder
  nodup_folders : (folders.map (·.name)).Nodup
  nodup_files : ∀ f ∈ folders, (f.files.map (·.1)).Nodup

/-- `data[name] = v`: under this name an object has its prototype, and no key. -/
def assign {V : Type} (data : TreeMap String V) (name : String) (v : V) : TreeMap String V :=
  if name = "__proto__" then data else data.insert name v

/-- The object `data`, and the arguments with which `onFileContent` has been called; `none` is `undefined`. -/
structure Gathered (V : Type) where
  data : TreeMap String V
  calls : List (Option (TreeMap String V))

namespace Gathered
variable {V : Type}

def start (total : Nat) : Gathered V := ⟨∅, if total = 0 then [none] else []⟩

def put (total : Nat) (s : Gathered V) (name : String) (content : V) : Gathered V :=
  let data := assign s.data name content
  { data := data, calls := if data.size = total then s.calls ++ [some data] else s.calls }

end Gathered

/-- A callback that is to come. -/
inductive Callback
  | listed (folder : Folder)
  | read (folder : Folder) (filename : String) (content : List UInt8)

def Callback.asks : Callback → List Callback
  | .listed folder => folder.files.map fun f => .read folder f.1 f.2
  | .read .. => []

def Callback.all (c : Callback) : List Callback := c :: c.asks

def Callback.run (total : Nat) (s : Gathered (List LogRecord)) : Callback → Gathered (List LogRecord)
  | .listed folder => if folder.files.length = 0 then { s with data := assign s.data folder.name [] } else s
  | .read folder _ content => s.put total folder.name (logRecords content)

def LogDirectory.listings (dir : LogDirectory) : List Callback := dir.folders.map .listed

/-- `readFiles` when the callbacks come in this order. -/
def readFiles (dir : LogDirectory) (callbacks : List Callback) : Gathered (List LogRecord) :=
  callbacks.foldl (Callback.run dir.folders.length) (.start dir.folders.length)

/-- `readGraph` for a directory with these files, when they are read in this order. -/
def readGraph (files order : List (String × List UInt8)) : Gathered (List Char) :=
  order.foldl (fun s f => s.put files.length f.1 (Utf8.decode f.2)) (.start files.length)

/-- `node_data` and `edge_data` of the pages that `showVisualization` renders; `none` for `undefined`, which has no
fields to look up. -/
def showVisualization (files order : List (String × List UInt8)) :
    List (Option (Option (List Char) × Option (List Char))) :=
  (readGraph files order).calls.map (Option.map fun data => (data["nodes.txt"]?, data["edges.txt"]?))

/-! ### The data of a page -/

section
variable {V : Type} {data : TreeMap String V compare} {name x : String} {v w : V}

theorem assign_of_ne (h : name ≠ "__proto__") : assign data name v = data.insert name v := if_neg h

theorem getElem?_assign (h : (assign data name v)[x]? = some w) : data[x]? = some w ∨ (x = name ∧ w = v) := by
  unfold assign at h
  split at h
  · exact .inl h
  · rw [TreeMap.getElem?_insert] at h
    split at h
    · rename_i he
      exact .inr ⟨(Std.LawfulEqOrd.eq_of_compare he).symm, (Option.some.inj h).symm⟩
    · exact .inl h

theorem mem_assign_of_mem (h : x ∈ data) : x ∈ assign data name v := by
  unfold assign
  split
  · exact h
  · exact TreeMap.mem_insert.mpr (.inr h)

theorem mem_assign_self (h : name ≠ "__proto__") : name ∈ assign data name v := by
  rw [assign_of_ne h]
  exact TreeMap.mem_insert.mpr (.inl Std.ReflCmp.compare_self)

theorem mem_assign (h : x ∈ assign data name v) : x ∈ data ∨ (x = name ∧ x ≠ "__proto__") := by
  unfold assign at h
  split at h
  · exact .inl h
  · rename_i hne
    rcases TreeMap.mem_insert.mp h with he | h
    · obtain rfl := Std.LawfulEqOrd.eq_of_compare he
      exact .inr ⟨rfl, hne⟩
    · exact .inl h

end

namespace Gathered
variable {V : Type} {s : Gathered V} {names : List String} {P : String → V → Prop}

/-- What is known under the names, and that a page has all of them. -/
structure Sound (names : List String) (P : String → V → Prop) (s : Gathered V) : Prop where
  entries : ∀ name v, s.data[name]? = some v → name ∈ names ∧ P name v
  calls : ∀ data, some data ∈ s.calls →
    (∀ name ∈ names, name ∈ data) ∧ ∀ name v, data[name]? = some v → name ∈ names ∧ P name v

theorem Sound.mem (h : s.Sound names P) : ∀ name ∈ s.data, name ∈ names := by
  intro name hname
  obtain ⟨v, hv⟩ := TreeMaps.exists_getElem? hname
  exact (h.entries name v hv).1

theorem Sound.start (names : List String) (P : String → V → Prop) (total : Nat) : (start total).Sound names P where
  entries name v hv := by simp [Gathered.start] at hv
  calls data hdata := by
    unfold Gathered.start at hdata
    split at hdata <;> simp at hdata

theorem Sound.assign (h : s.Sound names P) {name : String} (hname : name ∈ names) {v : V} (hv : P name v) :
    ({ s with data := assign s.data name v } : Gathered V).Sound names P where
  entries x w hx := by
    rcases getElem?_assign hx with hx | ⟨rfl, rfl⟩
    exacts [h.entries x w hx, ⟨hname, hv⟩]
  calls := h.calls

theorem Sound.put_calls (h : s.Sound names P) (hnd : names.Nodup) {name : String} (hname : name ∈ names) {v : V}
    (hv : P name v) : (s.put names.length name v).calls =
      if ∀ x ∈ names, x ∈ (s.put names.length name v).data then
        s.calls ++ [some (s.put names.length name v).data] else s.calls := by
  have hsize := TreeMaps.size_eq_length_iff hnd (h.assign hname hv).mem
  simp only [put, hsize]

theorem Sound.put (h : s.Sound names P) (hnd : names.Nodup) {name : String} (hname : name ∈ names) {v : V}
    (hv : P name v) : (s.put names.length name v).Sound names P where
  entries := (h.assign hname hv).entries
  calls data hdata := by
    rw [h.put_calls hnd hname hv] at hdata
    split at hdata
    · rename_i hall
      rcases List.mem_append.mp hdata with hdata | hdata
      · exact h.calls data hdata
      · obtain rfl := Option.some.inj (List.mem_singleton.mp hdata)
        exact ⟨hall, (h.assign hname hv).entries⟩
    · exact h.calls data hdata

def putAll (total : Nat) (s : Gathered V) (l : List (String × V)) : Gathered V :=
  l.foldl (fun s f => s.put total f.1 f.2) s

theorem Sound.putAll (hnd : names.Nodup) {l : List (String × V)} (hl : ∀ f ∈ l, f.1 ∈ names ∧ P f.1 f.2)
    (h : s.Sound names P) : (s.putAll names.length l).Sound names P := by
  induction l generalizing s with
  | nil => exact h
  | cons f l ih =>
    obtain ⟨⟨hname, hv⟩, hl⟩ := List.forall_mem_cons.mp hl
    exact ih hl (h.put hnd hname hv)

theorem putAll_calls {total : Nat} {l : List (String × V)} (hnd : (l.map (·.1)).Nodup)
    (hkey : ∀ f ∈ l, f.1 ≠ "__proto__") (hnew : ∀ f ∈ l, f.1 ∉ s.data) (hle : s.data.size + l.length ≤ total) :
    (s.putAll total l).calls =
      if l ≠ [] ∧ s.data.size + l.length = total then s.calls ++ [some (s.putAll total l).data] else s.calls := by
  induction l generalizing s with
  | nil => rfl
  | cons f l ih =>
    rw [List.map_cons, List.nodup_cons] at hnd
    rw [List.forall_mem_cons] at hnew hkey
    rw [List.length_cons] at hle ⊢
    have hsize : (s.put total f.1 f.2).data.size = s.data.size + 1 := by
      rw [put, assign_of_ne hkey.1]
      exact TreeMap.size_insert.trans (if_neg hnew.1)
    have hnew' : ∀ x ∈ l, x.1 ∉ (s.put total f.1 f.2).data := by
      intro x hx hmem
      rcases mem_assign hmem with hmem | ⟨he, -⟩
      · exact hnew.2 x hx hmem
      · exact hnd.1 (he ▸ List.mem_map_of_mem hx)
    have hrest := ih hnd.2 hkey.2 hnew' (by omega)
    rw [hsize, Nat.add_assoc, Nat.add_comm 1] at hrest
    have hcalls : (s.put total f.1 f.2).calls =
        if s.data.size + 1 = total then s.calls ++ [some (s.put total f.1 f.2).data] else s.calls := by
      rw [← hsize]
      rfl
    show ((s.put total f.1 f.2).putAll total l).calls = _
    by_cases hl : l = []
    · subst hl
      simpa [putAll] using hcalls
    · have hlen := List.length_pos_iff.mpr hl
      rw [hrest, hcalls, if_neg (by omega : s.data.size + 1 ≠ total)]
      simp [hl, putAll]

theorem putAll_once {l : List (String × V)} (hnd : (l.map (·.1)).Nodup) (hkey : ∀ f ∈ l, f.1 ≠ "__proto__") :
    ((start l.length).putAll l.length l).calls =
      [if l = [] then none else some ((start l.length).putAll l.length l).data] := by
  by_cases hl : l = []
  · subst hl
    rfl
  · have hlen := List.length_pos_iff.mpr hl
    have hstart : (start (V := V) l.length).calls = [] := if_neg (by omega)
    have hsize : (start (V := V) l.length).data.size = 0 := TreeMap.size_emptyc
    rw [putAll_calls hnd hkey (fun f _ => TreeMap.not_mem_emptyc) (by omega), if_pos ⟨hl, by omega⟩, hstart, if_neg hl]
    rfl

end Gathered

/-- The files of the graph are read in any order: the page is rendered once, with what is in them. -/
theorem readGraph_once {files order : List (String × List UInt8)} (hnd : (files.map (·.1)).Nodup)
    (hkey : ∀ f ∈ files, f.1 ≠ "__proto__") (hperm : order.Perm files) (hne : files ≠ []) :
    ∃ data, (readGraph files order).calls = [some data] ∧
      ∀ f ∈ files, data[f.1]? = some (Utf8.decode f.2) := by
  let texts := order.map fun f => (f.1, Utf8.decode f.2)
  have hlen : texts.length = files.length := (List.length_map _).trans hperm.length_eq
  have hread : readGraph files order = (Gathered.start texts.length).putAll texts.length texts := by
    rw [hlen, Gathered.putAll, List.foldl_map]
    rfl
  have hnames : texts.map (·.1) = order.map (·.1) := List.map_map
  have hnd' : (texts.map (·.1)).Nodup := hnames ▸ (hperm.map (·.1)).nodup_iff.mpr hnd
  have hcalls := Gathered.putAll_once hnd' fun f hf => by
    obtain ⟨file, hfile, rfl⟩ := List.mem_map.mp hf
    exact hkey file (hperm.mem_iff.mp hfile)
  have htexts : texts ≠ [] := fun hnil => hne (List.length_eq_zero_iff.mp (hlen ▸ List.length_eq_zero_iff.mpr hnil))
  rw [if_neg htexts, ← hread] at hcalls
  refine ⟨_, hcalls, fun f hf => ?_⟩
  have hsound := Gathered.Sound.putAll hnd' (P := fun name text => (name, text) ∈ texts)
    (fun f hf => ⟨List.mem_map_of_mem hf, hf⟩) (.start _ _ texts.length)
  rw [List.length_map, ← hread] at hsound
  have hf' : (f.1, Utf8.decode f.2) ∈ texts := List.mem_map.mpr ⟨f, hperm.mem_iff.mpr hf, rfl⟩
  obtain ⟨hmem, hentries⟩ := hsound.calls _ (hcalls ▸ List.mem_singleton.mpr rfl)
  obtain ⟨text, htext⟩ := TreeMaps.exists_getElem? (hmem f.1 (List.mem_map_of_mem (f := (·.1)) hf'))
  have hpair : (f.1, text) = (f.1, Utf8.decode f.2) :=
    List.inj_on_of_nodup_map hnd' (hentries _ _ htext).2 hf' rfl
  rw [htext, (Prod.mk.inj hpair).2]

/-- The picture is shown once, in whatever order it is read together with the other files of its directory. -/
theorem showVisualization_once {files order : List (String × List UInt8)} (hnd : (files.map (·.1)).Nodup)
    (hkey : ∀ f ∈ files, f.1 ≠ "__proto__") (hperm : order.Perm files)
    {nodes edges : List UInt8} (hnodes : ("nodes.txt", nodes) ∈ files)
    (hedges : ("edges.txt", edges) ∈ files) :
    showVisualization files order = [some (some (Utf8.decode nodes), some (Utf8.decode edges))] := by
  obtain ⟨data, hcalls, hdata⟩ := readGraph_once hnd hkey hperm (List.ne_nil_of_mem hnodes)
  have hn : data["nodes.txt"]? = _ := hdata _ hnodes
  have he : data["edges.txt"]? = _ := hdata _ hedges
  rw [showVisualization, hcalls, List.map_singleton, Option.map_some, hn, he]

theorem showVisualization_once_three :
    showVisualization [("input.json", [123, 125]), ("nodes.txt", [91, 93]), ("edges.txt", [91])]
      [("edges.txt", [91]), ("input.json", [123, 125]), ("nodes.txt", [91, 93])] =
      [some (some (Utf8.decode [91, 93]), some (Utf8.decode [91]))] :=
  showVisualization_once (by decide) (by decide) (by decide) (.tail _ (.head _)) (.tail _ (.tail _ (.head _)))

/-! ### The folders in any order -/

/-- What is shown for a folder is what one of its files has. -/
def Folder.Shows (f : Folder) (records : List LogRecord) : Prop :=
  (f.files = [] ∧ records = []) ∨ ∃ file ∈ f.files, records = logRecords file.2

def Folder.callbacks (f : Folder) : List Callback := (Callback.listed f).all

def Callback.entry? : Callback → Option (String × List LogRecord)
  | .listed _ => none
  | .read folder _ content => some (folder.name, logRecords content)

namespace LogDirectory
variable (dir : LogDirectory)

def names : List String := dir.folders.map (·.name)

def callbacks : List Callback := dir.folders.flatMap Folder.callbacks

def Shows (name : String) (records : List LogRecord) : Prop := ∃ f ∈ dir.folders, f.name = name ∧ f.Shows records

variable {dir} {f : Folder} {c : Callback} {cs : List Callback} {s : State Callback} {n : Nat}
  {t : Gathered (List LogRecord)}

theorem mem_callbacks : c ∈ dir.callbacks ↔
    ∃ f ∈ dir.folders, c = .listed f ∨ ∃ file ∈ f.files, c = .read f file.1 file.2 := by
  simp [callbacks, Folder.callbacks, Callback.all, Callback.asks, eq_comm (a := c)]

/-- The callbacks that have come, and those that are behind the ones to come, are those of the directory. -/
theorem expand_eq (h : Run Callback.asks dir.listings n s) :
    (s.handled : Multiset Callback) + s.inFlight.bind (fun c => (c.all : Multiset Callback)) +
      s.lost.bind (fun c => (c.all : Multiset Callback)) = dir.callbacks := by
  have hall := h.expand (f := fun c => (c.all : Multiset Callback)) fun c => by
    rw [Multiset.coe_bind, Multiset.cons_coe]
    cases c with
    | listed f => simp [Callback.asks, Callback.all, List.flatMap_map, ← List.map_eq_flatMap]
    | read f filename content => rfl
  rw [hall, Multiset.coe_bind, listings, List.flatMap_map]
  rfl

theorem mem_of_run (h : Run Callback.asks dir.listings n s) : ∀ c ∈ s.handled, c ∈ dir.callbacks := by
  intro c hc
  have hall := expand_eq h
  rw [← Multiset.mem_coe, ← hall]
  exact Multiset.mem_add.mpr (.inl (Multiset.mem_add.mpr (.inl hc)))

theorem handled_perm (h : Complete Callback.asks dir.listings s) : s.handled.Perm dir.callbacks := by
  obtain ⟨⟨n, hrun⟩, hlost, hquiet⟩ := h
  have hall := expand_eq hrun
  rw [hlost, hquiet] at hall
  simpa using hall

theorem exists_complete {folders : List Folder} (hperm : folders.Perm dir.folders) :
    ∃ s, Complete Callback.asks dir.listings s ∧ s.handled = folders.flatMap Folder.callbacks := by
  have hall : ∀ (folders : List Folder) (n : Nat) (handled : List Callback),
      Run Callback.asks dir.listings n ⟨folders.map Callback.listed, handled, 0⟩ →
        ∃ n', Run Callback.asks dir.listings n' ⟨0, handled ++ folders.flatMap Folder.callbacks, 0⟩ := by
    intro folders
    induction folders with
    | nil => exact fun n handled h => ⟨n, by simpa using h⟩
    | cons f folders ih =>
      intro n handled h
      rw [List.map_cons, ← Multiset.cons_coe] at h
      have hnext := h.step .handle
      rw [add_comm (folders.map Callback.listed : Multiset Callback)] at hnext
      obtain ⟨n', hn'⟩ := hnext.handle_all fun c hc => by
        obtain ⟨x, -, rfl⟩ := List.mem_map.mp hc
        rfl
      obtain ⟨n'', hn''⟩ := ih n' _ hn'
      exact ⟨n'', by simpa [Folder.callbacks, Callback.all] using hn''⟩
  have hstart : (dir.listings : Multiset Callback) = folders.map Callback.listed :=
    Multiset.coe_eq_coe.mpr (hperm.symm.map _)
  obtain ⟨n, hrun⟩ := hall folders 0 [] (hstart ▸ .start)
  exact ⟨_, ⟨⟨n, hrun⟩, rfl, rfl⟩, List.nil_append _⟩

/-! ### What is rendered -/

theorem run_sound (ht : t.Sound dir.names dir.Shows) (hc : c ∈ dir.callbacks) :
    (c.run dir.folders.length t).Sound dir.names dir.Shows := by
  obtain ⟨f, hf, rfl | ⟨file, hfile, rfl⟩⟩ := mem_callbacks.mp hc
  · rw [Callback.run]
    split
    · rename_i hnone
      exact ht.assign (List.mem_map_of_mem hf) ⟨f, hf, rfl, .inl ⟨List.length_eq_zero_iff.mp hnone, rfl⟩⟩
    · exact ht
  · have hput := ht.put dir.nodup_folders (List.mem_map_of_mem hf) (v := logRecords file.2)
      ⟨f, hf, rfl, .inr ⟨file, hfile, rfl⟩⟩
    rwa [names, List.length_map] at hput

theorem foldl_sound (ht : t.Sound dir.names dir.Shows) (hcs : ∀ c ∈ cs, c ∈ dir.callbacks) :
    (cs.foldl (Callback.run dir.folders.length) t).Sound dir.names dir.Shows := by
  induction cs generalizing t with
  | nil => exact ht
  | cons c cs ih =>
    rw [List.forall_mem_cons] at hcs
    exact ih (run_sound ht hcs.1) hcs.2

theorem readFiles_eq (hcs : ∀ c ∈ cs, c ∈ dir.callbacks) (hfiles : ∀ f ∈ dir.folders, f.files ≠ []) :
    readFiles dir cs =
      (Gathered.start dir.folders.length).putAll dir.folders.length (cs.filterMap Callback.entry?) := by
  have hall : ∀ t : Gathered (List LogRecord), cs.foldl (Callback.run dir.folders.length) t =
      t.putAll dir.folders.length (cs.filterMap Callback.entry?) := by
    induction cs with
    | nil => exact fun t => rfl
    | cons c cs ih =>
      rw [List.forall_mem_cons] at hcs
      intro t
      rw [List.foldl_cons, ih hcs.2]
      obtain ⟨f, hf, rfl | ⟨file, -, rfl⟩⟩ := mem_callbacks.mp hcs.1
      · have hrun : Callback.run dir.folders.length t (.listed f) = t :=
          if_neg fun hnone => hfiles f hf (List.length_eq_zero_iff.mp hnone)
        rw [hrun]
        rfl
      · rfl
  exact hall _

theorem map_entry?_callbacks {folders : List Folder} (hone : ∀ f ∈ folders, ∃ file, f.files = [file]) :
    ((folders.flatMap Folder.callbacks).filterMap Callback.entry?).map (·.1) = folders.map (·.name) := by
  induction folders with
  | nil => rfl
  | cons f folders ih =>
    rw [List.forall_mem_cons] at hone
    obtain ⟨⟨file, hfile⟩, hone⟩ := hone
    have hf : f.callbacks.filterMap Callback.entry? = [(f.name, logRecords file.2)] := by
      rw [Folder.callbacks, Callback.all, Callback.asks, hfile]
      rfl
    rw [List.flatMap_cons, List.filterMap_append, List.map_append, ih hone, hf]
    rfl

theorem calls_of_single (h : Complete Callback.asks dir.listings s)
    (hkey : ∀ f ∈ dir.folders, f.name ≠ "__proto__") (hone : ∀ f ∈ dir.folders, ∃ file, f.files = [file]) :
    ∃ call, (readFiles dir s.handled).calls = [call] ∧ (dir.folders ≠ [] → call ≠ none) := by
  have hperm := handled_perm h
  have hfiles : ∀ f ∈ dir.folders, f.files ≠ [] := by
    intro f hf
    obtain ⟨file, hfile⟩ := hone f hf
    rw [hfile]
    exact List.cons_ne_nil _ _
  have hnames : ((s.handled.filterMap Callback.entry?).map (·.1)).Perm (dir.folders.map (·.name)) := by
    rw [← map_entry?_callbacks hone]
    exact (hperm.filterMap _).map _
  have hlen : (s.handled.filterMap Callback.entry?).length = dir.folders.length := by
    simpa using hnames.length_eq
  have hcalls := Gathered.putAll_once (hnames.nodup_iff.mpr dir.nodup_folders) fun x hx => by
    obtain ⟨f, hf, hname⟩ := List.mem_map.mp (hnames.mem_iff.mp (List.mem_map_of_mem hx))
    exact hname ▸ hkey f hf
  rw [hlen, ← readFiles_eq (fun c hc => hperm.mem_iff.mp hc) hfiles] at hcalls
  refine ⟨_, hcalls, fun hne => ?_⟩
  rw [if_neg fun hnil => hne (List.length_eq_zero_iff.mp (hlen.symm.trans (List.length_eq_zero_iff.mpr hnil)))]
  exact Option.some_ne_none _

theorem page_sound (h : Run Callback.asks dir.listings n s) {data : TreeMap String (List LogRecord) compare}
    (hdata : some data ∈ (readFiles dir s.handled).calls) :
    (∀ f ∈ dir.folders, ∃ records, data[f.name]? = some records ∧ f.Shows records) ∧
      ∀ name ∈ data, ∃ f ∈ dir.folders, f.name = name := by
  have hsound : (readFiles dir s.handled).Sound dir.names dir.Shows := foldl_sound (.start ..) (mem_of_run h)
  obtain ⟨hmem, hentries⟩ := hsound.calls data hdata
  refine ⟨fun f hf => ?_, fun name hname => ?_⟩
  · obtain ⟨records, hrecords⟩ := TreeMaps.exists_getElem? (hmem f.name (List.mem_map_of_mem hf))
    obtain ⟨-, f', hf', hname, hshows⟩ := hentries _ _ hrecords
    rw [List.inj_on_of_nodup_map dir.nodup_folders hf' hf hname] at hshows
    exact ⟨records, hrecords, hshows⟩
  · obtain ⟨records, hrecords⟩ := TreeMaps.exists_getElem? hname
    obtain ⟨-, f, hf, hname, -⟩ := hentries _ _ hrecords
    exact ⟨f, hf, hname⟩

theorem page_of_single (h : Complete Callback.asks dir.listings s)
    (hkey : ∀ f ∈ dir.folders, f.name ≠ "__proto__") (hone : ∀ f ∈ dir.folders, ∃ file, f.files = [file])
    (hne : dir.folders ≠ []) :
    ∃ data, (readFiles dir s.handled).calls = [some data] ∧
      (∀ f ∈ dir.folders, ∀ file, f.files = [file] → data[f.name]? = some (logRecords file.2)) ∧
      ∀ name ∈ data, ∃ f ∈ dir.folders, f.name = name := by
  obtain ⟨call, hcalls, hsome⟩ := calls_of_single h hkey hone
  obtain ⟨data, rfl⟩ := Option.ne_none_iff_exists'.mp (hsome hne)
  obtain ⟨n, hrun⟩ := h.run
  obtain ⟨hshows, hnames⟩ := page_sound hrun (hcalls ▸ List.mem_singleton.mpr rfl)
  refine ⟨data, hcalls, fun f hf file hfile => ?_, hnames⟩
  obtain ⟨records, hrecords, ⟨hnil, -⟩ | ⟨x, hx, rfl⟩⟩ := hshows f hf
  · rw [hfile] at hnil
    cases hnil
  · rw [hfile, List.mem_singleton] at hx
    rw [hrecords, hx]

/-! ### A folder that comes last -/

theorem mem_foldl {name : String} (h : name ∈ t.data) (cs : List Callback) (total : Nat) :
    name ∈ (cs.foldl (Callback.run total) t).data := by
  induction cs generalizing t with
  | nil => exact h
  | cons c cs ih =>
    refine ih ?_
    cases c with
    | listed f =>
      rw [Callback.run]
      split
      · exact mem_assign_of_mem h
      · exact h
    | read f filename content => exact mem_assign_of_mem h

theorem name_mem_foldl {folders : List Folder} (hf : f ∈ folders) (hkey : f.name ≠ "__proto__")
    (t : Gathered (List LogRecord)) (total : Nat) :
    f.name ∈ ((folders.flatMap Folder.callbacks).foldl (Callback.run total) t).data := by
  obtain ⟨before, after, rfl⟩ := List.append_of_mem hf
  rw [List.flatMap_append, List.flatMap_cons, List.foldl_append, List.foldl_append]
  refine mem_foldl ?_ _ _
  generalize (before.flatMap Folder.callbacks).foldl (Callback.run total) t = t
  rw [Folder.callbacks, Callback.all, List.foldl_cons, Callback.run, Callback.asks]
  split
  · exact mem_foldl (mem_assign_self hkey) _ _
  · rename_i hne
    obtain ⟨file, files, hfiles⟩ := List.exists_cons_of_ne_nil fun h => hne (List.length_eq_zero_iff.mpr h)
    rw [hfiles, List.map_cons, List.foldl_cons]
    exact mem_foldl (mem_assign_self hkey) _ _

theorem calls_foldl_of_notMem (hf : f ∈ dir.folders) {folders : List Folder} (hsub : ∀ x ∈ folders, x ∈ dir.folders)
    (hnot : ∀ x ∈ folders, x.name ≠ f.name ∨ f.name = "__proto__") (ht : t.Sound dir.names dir.Shows)
    (hname : f.name ∉ t.data) :
    ((folders.flatMap Folder.callbacks).foldl (Callback.run dir.folders.length) t).calls = t.calls := by
  have hcs : ∀ c ∈ folders.flatMap Folder.callbacks, ∃ x ∈ dir.folders,
      (x.name ≠ f.name ∨ f.name = "__proto__") ∧
        (c = .listed x ∨ ∃ file ∈ x.files, c = .read x file.1 file.2) := by
    intro c hc
    obtain ⟨x, hx, hc⟩ := List.mem_flatMap.mp hc
    refine ⟨x, hsub x hx, hnot x hx, ?_⟩
    simpa [Folder.callbacks, Callback.all, Callback.asks, eq_comm (a := c)] using hc
  generalize folders.flatMap Folder.callbacks = cs at hcs
  induction cs generalizing t with
  | nil => rfl
  | cons c cs ih =>
    rw [List.forall_mem_cons] at hcs
    obtain ⟨⟨x, hx, hxf, hc⟩, hcs⟩ := hcs
    have hsound := run_sound ht (mem_callbacks.mpr ⟨x, hx, hc⟩)
    have hinsert : ∀ v : List LogRecord, f.name ∉ assign t.data x.name v := by
      intro v hmem
      rcases mem_assign hmem with hmem | ⟨he, hne⟩
      · exact hname hmem
      · exact hxf.elim (fun h => h he.symm) hne
    have hstep : f.name ∉ (c.run dir.folders.length t).data ∧ (c.run dir.folders.length t).calls = t.calls := by
      rcases hc with rfl | ⟨file, -, rfl⟩
      · rw [Callback.run]
        split
        · exact ⟨hinsert _, rfl⟩
        · exact ⟨hname, rfl⟩
      · refine ⟨hinsert _, if_neg fun hfull => ?_⟩
        have hfull : (assign t.data x.name (logRecords file.2)).size = dir.names.length := by
          rw [names, List.length_map]
          exact hfull
        exact hinsert _ ((TreeMaps.size_eq_length_iff dir.nodup_folders hsound.mem).mp hfull _
          (List.mem_map_of_mem hf))
    rw [List.foldl_cons, ih hsound hstep.1 hcs, hstep.2]

theorem calls_foldl_last (hf : f ∈ dir.folders) (hkey : f.name ≠ "__proto__") (ht : t.Sound dir.names dir.Shows)
    (hall : ∀ x ∈ dir.folders, x.name ≠ f.name → x.name ∈ t.data) :
    (f.callbacks.foldl (Callback.run dir.folders.length) t).calls.length = t.calls.length + f.files.length := by
  have hreads : ∀ (files : List (String × List UInt8)), (∀ x ∈ files, x ∈ f.files) →
      ∀ t : Gathered (List LogRecord), t.Sound dir.names dir.Shows →
        (∀ x ∈ dir.folders, x.name ≠ f.name → x.name ∈ t.data) →
        ((files.map fun x => Callback.read f x.1 x.2).foldl (Callback.run dir.folders.length) t).calls.length =
          t.calls.length + files.length := by
    intro files
    induction files with
    | nil => exact fun _ t _ _ => rfl
    | cons file files ih =>
      intro hsub t ht hall
      rw [List.forall_mem_cons] at hsub
      have hsound := run_sound ht (mem_callbacks.mpr ⟨f, hf, .inr ⟨file, hsub.1, rfl⟩⟩)
      have hdata : ∀ x ∈ dir.folders, x.name ∈ (Callback.run dir.folders.length t (.read f file.1 file.2)).data := by
        intro x hx
        by_cases hxf : x.name = f.name
        · rw [hxf]
          exact mem_assign_self hkey
        · exact mem_assign_of_mem (hall x hx hxf)
      have hfull : (assign t.data f.name (logRecords file.2)).size = dir.folders.length := by
        rw [← List.length_map (f := (·.name))]
        refine (TreeMaps.size_eq_length_iff dir.nodup_folders hsound.mem).mpr fun name hname => ?_
        obtain ⟨x, hx, rfl⟩ := List.mem_map.mp hname
        exact hdata x hx
      have hcalls : (Callback.run dir.folders.length t (.read f file.1 file.2)).calls =
          t.calls ++ [some (assign t.data f.name (logRecords file.2))] := if_pos hfull
      rw [List.map_cons, List.foldl_cons, ih hsub.2 _ hsound fun x hx _ => hdata x hx, hcalls, List.length_append,
        List.length_singleton, List.length_cons]
      omega
  have hlisted : (Callback.run dir.folders.length t (.listed f)).calls = t.calls := by
    rw [Callback.run]
    split <;> rfl
  have hsound := run_sound ht (mem_callbacks.mpr ⟨f, hf, .inl rfl⟩)
  rw [Folder.callbacks, Callback.all, List.foldl_cons, Callback.asks, hreads f.files (fun _ hx => hx) _ hsound, hlisted]
  intro x hx hxf
  exact mem_foldl (hall x hx hxf) [.listed f] dir.folders.length

theorem key_of_once (h : ∀ s, Complete Callback.asks dir.listings s → (readFiles dir s.handled).calls.length = 1)
    (hf : f ∈ dir.folders) : f.name ≠ "__proto__" := by
  intro hproto
  obtain ⟨s, hs, hhandled⟩ := exists_complete (.refl dir.folders)
  have hnone : (Gathered.start (V := List LogRecord) dir.folders.length).calls = [] :=
    if_neg (List.length_pos_iff.mpr (List.ne_nil_of_mem hf)).ne'
  have hcalls := calls_foldl_of_notMem hf (fun _ hx => hx) (fun _ _ => .inr hproto)
    (Gathered.Sound.start dir.names dir.Shows dir.folders.length) TreeMap.not_mem_emptyc
  have hcount := h s hs
  rw [readFiles, hhandled, hcalls, hnone] at hcount
  cases hcount

/-- In every order, a page that is rendered has an entry for each folder, from one of its files, and no other. The page
is rendered once in every order if and only if each folder has a name that an object takes, and exactly one file. -/
theorem readFiles_once (dir : LogDirectory) :
    (∀ n s, Run Callback.asks dir.listings n s → ∀ data, some data ∈ (readFiles dir s.handled).calls →
      (∀ f ∈ dir.folders, ∃ records, data[f.name]? = some records ∧ f.Shows records) ∧
        ∀ name ∈ data, ∃ f ∈ dir.folders, f.name = name) ∧
    ((∀ s, Complete Callback.asks dir.listings s → (readFiles dir s.handled).calls.length = 1) ↔
      ∀ f ∈ dir.folders, f.name ≠ "__proto__" ∧ ∃ file, f.files = [file]) := by
  refine ⟨fun n s hrun data hdata => page_sound hrun hdata, fun h f hf => ⟨key_of_once h hf, ?_⟩, fun hone s hs => ?_⟩
  · -- the folder is read when all others have been
    obtain ⟨before, after, hsplit⟩ := List.append_of_mem hf
    have hperm : ((before ++ after) ++ [f]).Perm dir.folders := by
      rw [hsplit, List.append_assoc]
      exact (List.perm_append_comm : (after ++ [f]).Perm ([f] ++ after)).append_left before
    obtain ⟨s, hs, hhandled⟩ := exists_complete hperm
    have hmem : ∀ x, x ∈ dir.folders ↔ x ∈ before ++ after ∨ x = f := by
      intro x
      rw [← hperm.mem_iff, List.mem_append (s := before ++ after), List.mem_singleton]
    have hnot : ∀ x ∈ before ++ after, x.name ≠ f.name := by
      intro x hx he
      have hnd := dir.nodup_folders
      rw [← (hperm.map _).nodup_iff, List.map_append, List.nodup_append] at hnd
      exact hnd.2.2 _ (List.mem_map_of_mem hx) _ (List.mem_map_of_mem (List.mem_singleton.mpr rfl)) he
    have hstart : (Gathered.start (V := List LogRecord) dir.folders.length).Sound dir.names dir.Shows := .start ..
    have hsub : ∀ x ∈ before ++ after, x ∈ dir.folders := fun x hx => (hmem x).mpr (.inl hx)
    have hothers := calls_foldl_of_notMem hf hsub (fun x hx => .inl (hnot x hx)) hstart TreeMap.not_mem_emptyc
    have hbefore : ∀ c ∈ (before ++ after).flatMap Folder.callbacks, c ∈ dir.callbacks := by
      intro c hc
      obtain ⟨x, hx, hc⟩ := List.mem_flatMap.mp hc
      exact List.mem_flatMap.mpr ⟨x, hsub x hx, hc⟩
    have hlast := calls_foldl_last hf (key_of_once h hf) (foldl_sound hstart hbefore) fun x hx hxf =>
      name_mem_foldl (((hmem x).mp hx).resolve_right fun he => hxf (he ▸ rfl)) (key_of_once h hx) _ _
    have hnone : (Gathered.start (V := List LogRecord) dir.folders.length).calls = [] :=
      if_neg (List.length_pos_iff.mpr (List.ne_nil_of_mem hf)).ne'
    have hcount := h s hs
    rw [readFiles, hhandled, List.flatMap_append, List.foldl_append, List.flatMap_singleton, hlast, hothers, hnone,
      List.length_nil, Nat.zero_add] at hcount
    exact List.length_eq_one_iff.mp hcount
  · obtain ⟨call, hcalls, -⟩ := calls_of_single hs (fun f hf => (hone f hf).1) fun f hf => (hone f hf).2
    rw [hcalls, List.length_singleton]

end LogDirectory
end DeepNF
