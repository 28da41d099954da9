import GoCommon.LexicalPath

/-!
# The topics of a broker

A topic is kept in a directory whose path is joined from the data directory and
the name of the topic; a broker that is opened finds its topics by the entries
of one directory. Names that are not names of directory entries are kept
elsewhere, or together with other topics, and are not found again. Making a
directory and opening the log of a topic are taken to succeed.
-/

set_option autoImplicit false

namespace GoCommon.ForgeBroker
open List LexicalPath

def topicsName : Bytes := [116,111,112,105,99,115]
def offsetsName : Bytes := [111,102,102,115,101,116,115]

structure Topic where
  name : Bytes
  dir : Bytes
  deriving DecidableEq, Repr

structure Broker where
  dataDir : Bytes
  topics : List Topic
  closed : Bool
  deriving DecidableEq, Repr

abbrev Dirs := List Dir

def mkdirAll (cwd : Dir) (path : Bytes) (dirs : Dirs) : Dirs := dirs++(resolve cwd path).tails

def entries (cwd : Dir) (path : Bytes) (dirs : Dirs) : List Bytes :=
  dirs.filterMap (fun d => match d with
    | [] => none
    | c::rest => if rest = resolve cwd path then some c.1 else none)

namespace Broker

def topicsDir (b : Broker) : Bytes := join [b.dataDir,topicsName]

def getTopic (b : Broker) (name : Bytes) : Option Topic := b.topics.find? (fun t => t.name = name)

def createTopic (cwd : Dir) (name : Bytes) (b : Broker) (dirs : Dirs) : Broker × Dirs :=
  ({ b with topics := b.topics++[⟨name,join [b.dataDir,topicsName,name]⟩] },
    mkdirAll cwd (join [b.dataDir,topicsName,name]) dirs)

def getOrCreateTopicLocked (cwd : Dir) (name : Bytes) (b : Broker) (dirs : Dirs) : Broker × Dirs :=
  match b.getTopic name with
  | some _ => (b,dirs)
  | none => b.createTopic cwd name dirs

def ensureTopic (cwd : Dir) (name : Bytes) (b : Broker) (dirs : Dirs) : Broker × Dirs :=
  if b.closed then (b,dirs) else b.getOrCreateTopicLocked cwd name dirs

def openAll (cwd : Dir) (names : List Bytes) (s : Broker × Dirs) : Broker × Dirs :=
  names.foldl (fun s name => s.1.getOrCreateTopicLocked cwd name s.2) s

def useAll (cwd : Dir) (names : List Bytes) (s : Broker × Dirs) : Broker × Dirs :=
  names.foldl (fun s name => s.1.ensureTopic cwd name s.2) s

def loadTopics (cwd : Dir) (b : Broker) (dirs : Dirs) : Broker × Dirs :=
  openAll cwd (entries cwd b.topicsDir dirs) (b,dirs)

def names (b : Broker) : List Bytes := b.topics.map Topic.name

end Broker

open Broker

def newBroker (cwd : Dir) (dataDir : Bytes) (dirs : Dirs) : Broker × Dirs :=
  loadTopics cwd ⟨dataDir,[],false⟩
    (mkdirAll cwd (join [dataDir,offsetsName]) (mkdirAll cwd (join [dataDir,topicsName]) dirs))

structure Apart (cwd : Dir) (b : Broker) (dirs : Dirs) : Prop where
  distinct : ∀ t ∈ b.topics, ∀ u ∈ b.topics, t.name ≠ u.name → resolve cwd t.dir ≠ resolve cwd u.dir
  inside : ∀ t ∈ b.topics, ∃ d : Dir, d ≠ [] ∧ resolve cwd t.dir = d++resolve cwd b.topicsDir
  found : ∀ n, n ∈ (newBroker cwd b.dataDir dirs).1.names ↔ n ∈ b.names

/-! ## Paths -/

section Paths
variable (cwd : Dir) (dataDir : Bytes)

theorem plain_topics : Plain topicsName := by decide

theorem plain_offsets : Plain offsetsName := by decide

theorem rooted_append {a b : Bytes} (h : a ≠ []) : rooted (a++b) = rooted a := by
  rcases a with _ | ⟨x,a⟩
  · exact (h rfl).elim
  · rfl

theorem resolve_append {a : Bytes} (b : Bytes) (h : a ≠ []) :
    resolve cwd (a++slash::b) = (components b).foldl walk (resolve cwd a) := by
  rw [resolve, resolve, rooted_append h, components_append, foldl_append]

theorem resolve_name {c : Bytes} (h : Plain c) : resolve cwd c = ⟨c,h⟩::cwd := by
  have hr : rooted c = false := by
    rcases c with _ | ⟨x,c⟩
    · exact (h.ne_nil rfl).elim
    · have hx : x ≠ slash := fun he => h.no_slash (by simp [he])
      simp [rooted, hx]
  rw [resolve, hr, components_single h.no_slash]
  exact walk_plain h

theorem resolve_data {c : Bytes} (h : Plain c) :
    resolve cwd (join [dataDir,c]) = ⟨c,h⟩::resolve cwd dataDir := by
  by_cases hd : dataDir = []
  · subst hd
    have hj : join [[],c] = clean c := by
      simp [join, List.dropWhile, h.ne_nil, List.intercalate]
    rw [hj, resolve_clean, resolve_name cwd h]
    rfl
  have hj : join [dataDir,c] = clean (dataDir++slash::c) := by
    simp [join, List.dropWhile, hd, List.intercalate]
  rw [hj, resolve_clean, resolve_append cwd _ hd, components_single h.no_slash]
  exact walk_plain h

theorem resolve_topic {name : Bytes} : resolve cwd (join [dataDir,topicsName,name]) =
    (components name).foldl walk (resolve cwd (join [dataDir,topicsName])) := by
  rw [resolve_data cwd dataDir plain_topics]
  have hne : topicsName ≠ [] := plain_topics.ne_nil
  by_cases hd : dataDir = []
  · subst hd
    have hj : join [[],topicsName,name] = clean (topicsName++slash::name) := by
      simp [join, List.dropWhile, hne, List.intercalate]
    rw [hj, resolve_clean]
    rfl
  have hj : join [dataDir,topicsName,name] = clean ((dataDir++slash::topicsName)++slash::name) := by
    simp [join, List.dropWhile, hd, List.intercalate]
  rw [hj, resolve_clean, resolve_append cwd _ (by simp), resolve_append cwd _ hd]
  rfl

theorem resolve_plain_topic {name : Bytes} (h : Plain name) :
    resolve cwd (join [dataDir,topicsName,name]) =
      ⟨name,h⟩::resolve cwd (join [dataDir,topicsName]) := by
  rw [resolve_topic, components_single h.no_slash]
  exact walk_plain h

end Paths

/-! ## Directory entries -/

theorem mem_entries {cwd : Dir} {path : Bytes} {dirs : Dirs} {n : Bytes} :
    n ∈ entries cwd path dirs ↔ ∃ h : Plain n, (⟨n,h⟩::resolve cwd path : Dir) ∈ dirs := by
  rw [entries, mem_filterMap]
  constructor
  · rintro ⟨d,hd,hn⟩
    rcases d with _ | ⟨c,rest⟩
    · cases hn
    · simp only [Option.ite_none_right_eq_some, Option.some.injEq] at hn
      obtain ⟨rfl,rfl⟩ := hn
      exact ⟨c.2,hd⟩
  · rintro ⟨h,hd⟩
    exact ⟨_,hd,by simp⟩

theorem entries_mkdirAll_short {cwd : Dir} {path made : Bytes} {dirs : Dirs} {n : Bytes}
    (h : (resolve cwd made).length ≤ (resolve cwd path).length) :
    n ∈ entries cwd path (mkdirAll cwd made dirs) ↔ n ∈ entries cwd path dirs := by
  rw [mem_entries, mem_entries]
  refine exists_congr (fun hp => ?_)
  rw [mkdirAll, mem_append, mem_tails]
  refine ⟨fun hm => hm.resolve_right (fun hs => ?_),.inl⟩
  have := hs.length_le
  simp only [length_cons] at this
  omega

theorem entries_mkdirAll_child {cwd : Dir} {path made : Bytes} (dirs : Dirs) (n : Bytes) {name : Bytes}
    (hp : Plain name) (h : resolve cwd made = ⟨name,hp⟩::resolve cwd path) :
    n ∈ entries cwd path (mkdirAll cwd made dirs) ↔ n ∈ entries cwd path dirs ∨ n = name := by
  rw [mem_entries, mem_entries, mkdirAll, h]
  simp only [mem_append, mem_tails, exists_or]
  refine or_congr Iff.rfl ⟨?_,?_⟩
  · rintro ⟨hn,hs⟩
    have := hs.eq_of_length (by simp)
    simp only [List.cons.injEq, Subtype.mk.injEq, and_true] at this
    exact this
  · rintro rfl
    exact ⟨hp,suffix_refl _⟩

/-! ## Using topics -/

section Topics
variable (cwd : Dir)

theorem getTopic_none (b : Broker) (name : Bytes) : b.getTopic name = none ↔ name ∉ b.names := by
  simp only [getTopic, List.find?_eq_none, names, mem_map, decide_eq_true_eq]
  grind

def Placed (b : Broker) : Prop := ∀ t ∈ b.topics, t.dir = join [b.dataDir,topicsName,t.name]

structure Opened (name : Bytes) (s s' : Broker × Dirs) : Prop where
  dataDir : s'.1.dataDir = s.1.dataDir
  closed : s'.1.closed = s.1.closed
  names : ∀ n, n ∈ s'.1.names ↔ n ∈ s.1.names ∨ n = name
  placed : Placed s.1 → Placed s'.1
  entries : Plain name → (name ∈ s.1.names → name ∈ entries cwd s.1.topicsDir s.2) →
    ∀ n, n ∈ entries cwd s'.1.topicsDir s'.2 ↔ n ∈ entries cwd s.1.topicsDir s.2 ∨ n = name

theorem getOrCreate_opened (name : Bytes) (s : Broker × Dirs) :
    Opened cwd name s (s.1.getOrCreateTopicLocked cwd name s.2) := by
  obtain ⟨b,dirs⟩ := s
  by_cases hn : name ∈ b.names
  · have hg : ∃ t, b.getTopic name = some t := by
      rw [← Option.ne_none_iff_exists']
      exact fun he => ((getTopic_none b name).mp he) hn
    obtain ⟨t,ht⟩ := hg
    have hdef : b.getOrCreateTopicLocked cwd name dirs = (b,dirs) := by
      rw [getOrCreateTopicLocked, ht]
    rw [hdef]
    refine ⟨rfl,rfl,fun n => ⟨.inl,?_⟩,id,fun _ he n => ⟨.inl,?_⟩⟩
    · rintro (h | rfl)
      · exact h
      · exact hn
    · rintro (h | rfl)
      · exact h
      · exact he hn
  have hdef : b.getOrCreateTopicLocked cwd name dirs = b.createTopic cwd name dirs := by
    rw [getOrCreateTopicLocked, (getTopic_none b name).mpr hn]
  rw [hdef]
  refine ⟨rfl,rfl,fun n => by simp [createTopic, names],fun hp t ht => ?_,fun hp _ n => ?_⟩
  · rcases mem_append.mp ht with ht | ht
    · exact hp t ht
    · rw [mem_singleton.mp ht]
      rfl
  · exact entries_mkdirAll_child dirs n hp (resolve_plain_topic cwd b.dataDir hp)

def Listed (s : Broker × Dirs) : Prop := ∀ n, n ∈ s.1.names ↔ n ∈ entries cwd s.1.topicsDir s.2

structure OpenedAll (ns : List Bytes) (s s' : Broker × Dirs) : Prop where
  dataDir : s'.1.dataDir = s.1.dataDir
  names : ∀ n, n ∈ s'.1.names ↔ n ∈ s.1.names ∨ n ∈ ns
  placed : Placed s.1 → Placed s'.1
  entries : (∀ n ∈ ns, Plain n) → (∀ n ∈ s.1.names, n ∈ entries cwd s.1.topicsDir s.2) →
    ∀ n, n ∈ entries cwd s'.1.topicsDir s'.2 ↔ n ∈ entries cwd s.1.topicsDir s.2 ∨ n ∈ ns

theorem openAll_opened (ns : List Bytes) (s : Broker × Dirs) :
    OpenedAll cwd ns s (openAll cwd ns s) := by
  induction ns generalizing s with
  | nil => exact ⟨rfl,by simp [openAll],id,by simp [openAll]⟩
  | cons name ns ih =>
    have h := getOrCreate_opened cwd name s
    have hs := ih (s.1.getOrCreateTopicLocked cwd name s.2)
    refine ⟨hs.dataDir.trans h.dataDir,fun n => ?_,fun hp => hs.placed (h.placed hp),
      fun hp hin n => ?_⟩
    · rw [openAll, foldl_cons, ← openAll, hs.names, h.names, mem_cons, or_assoc]
    have hent := h.entries (hp name (by simp)) (hin name)
    rw [openAll, foldl_cons, ← openAll,
      hs.entries (fun x hx => hp x (by simp [hx])) (fun x hx => ?_), hent, mem_cons, or_assoc]
    rw [h.names] at hx
    exact (hent x).mpr (hx.imp (hin x) id)

theorem useAll_open (ns : List Bytes) (s : Broker × Dirs) (h : s.1.closed = false) :
    useAll cwd ns s = openAll cwd ns s := by
  induction ns generalizing s with
  | nil => rfl
  | cons name ns ih =>
    have hs : s.1.ensureTopic cwd name s.2 = s.1.getOrCreateTopicLocked cwd name s.2 := by
      rw [ensureTopic, h, if_neg (by simp)]
    rw [useAll, foldl_cons, hs, ← useAll, ih _ ((getOrCreate_opened cwd name s).closed.trans h)]
    rfl

theorem openAll_closed (ns : List Bytes) (s : Broker × Dirs) :
    (openAll cwd ns s).1.closed = s.1.closed := by
  induction ns generalizing s with
  | nil => rfl
  | cons name ns ih => exact (ih _).trans (getOrCreate_opened cwd name s).closed

theorem newBroker_loaded (dataDir : Bytes) (dirs : Dirs) :
    (newBroker cwd dataDir dirs).1.dataDir = dataDir ∧ (newBroker cwd dataDir dirs).1.closed = false ∧
    Placed (newBroker cwd dataDir dirs).1 ∧ Listed cwd (newBroker cwd dataDir dirs) ∧
    ∀ n, n ∈ (newBroker cwd dataDir dirs).1.names ↔
      n ∈ entries cwd (join [dataDir,topicsName]) dirs := by
  let b : Broker := ⟨dataDir,[],false⟩
  let dirs' := mkdirAll cwd (join [dataDir,offsetsName]) (mkdirAll cwd (join [dataDir,topicsName]) dirs)
  let found := entries cwd b.topicsDir dirs'
  have h : OpenedAll cwd found (b,dirs') (newBroker cwd dataDir dirs) := openAll_opened cwd found _
  have hfound : ∀ n, n ∈ found ↔ n ∈ entries cwd (join [dataDir,topicsName]) dirs := by
    intro n
    rw [entries_mkdirAll_short, entries_mkdirAll_short]
    · rfl
    · exact le_rfl
    · rw [show b.topicsDir = join [dataDir,topicsName] from rfl,
        resolve_data cwd dataDir plain_offsets, resolve_data cwd dataDir plain_topics]
      rfl
  have hnames : ∀ n, n ∈ (newBroker cwd dataDir dirs).1.names ↔ n ∈ found := by
    intro n
    rw [h.names]
    simp [b, names]
  refine ⟨h.dataDir,openAll_closed cwd found (b,dirs'),h.placed (fun t ht => by cases ht),fun n => ?_,
    fun n => (hnames n).trans (hfound n)⟩
  rw [hnames, h.entries (fun n hn => ?_) (fun n hn => by simp [b, names] at hn), or_self]
  obtain ⟨hp,_⟩ := (mem_entries).mp hn
  exact hp

/-- A broker keeps its topics apart exactly when all names it is used with are
names of directory entries. -/
theorem topics_apart_iff (dataDir : Bytes) (dirs : Dirs) (ns : List Bytes) :
    Apart cwd (useAll cwd ns (newBroker cwd dataDir dirs)).1
      (useAll cwd ns (newBroker cwd dataDir dirs)).2 ↔ ∀ n ∈ ns, Plain n := by
  obtain ⟨hdata,hopen,hplaced,hlisted,_⟩ := newBroker_loaded cwd dataDir dirs
  rw [useAll_open cwd ns _ hopen]
  have h := openAll_opened cwd ns (newBroker cwd dataDir dirs)
  generalize openAll cwd ns (newBroker cwd dataDir dirs) = s at h ⊢
  have hd : s.1.dataDir = dataDir := h.dataDir.trans hdata
  constructor
  · intro ha n hn
    have hk : n ∈ s.1.names := (h.names n).mpr (.inr hn)
    rw [← ha.found, (newBroker_loaded cwd s.1.dataDir s.2).2.2.2.2, mem_entries] at hk
    exact hk.1
  intro hp
  have hlist : Listed cwd s := by
    intro n
    rw [h.names, h.entries hp (fun n hn => (hlisted n).mp hn), hlisted]
  have hplain : ∀ t ∈ s.1.topics, Plain t.name := by
    intro t ht
    have : t.name ∈ s.1.names := mem_map_of_mem ht
    rw [hlist, mem_entries] at this
    exact this.1
  have hdir : ∀ t (ht : t ∈ s.1.topics),
      resolve cwd t.dir = ⟨t.name,hplain t ht⟩::resolve cwd s.1.topicsDir := by
    intro t ht
    rw [h.placed hplaced t ht, resolve_plain_topic cwd _ (hplain t ht)]
    rfl
  refine ⟨fun t ht u hu hne he => ?_,fun t ht => ?_,fun n => ?_⟩
  · rw [hdir t ht, hdir u hu] at he
    simp only [List.cons.injEq, Subtype.mk.injEq, and_true] at he
    exact hne he
  · exact ⟨[⟨t.name,hplain t ht⟩],by simp,by rw [hdir t ht]; rfl⟩
  · rw [(newBroker_loaded cwd s.1.dataDir s.2).2.2.2.2, hlist]
    rfl

end Topics

/-! ## Names that meet in one directory -/

def dataName : Bytes := [100]
def plainName : Bytes := [97]
def dottedName : Bytes := [46,47,97]
def nestedName : Bytes := [97,47,98]
def escapingName : Bytes := [46,46,47,46,46]

/-- Two names share a directory, one leads out of the data directory, and a
nested name is forgotten while its first component has become a topic. -/
theorem names_share_directory :
    ¬Apart [] (useAll [] [plainName,dottedName] (newBroker [] dataName [])).1
      (useAll [] [plainName,dottedName] (newBroker [] dataName [])).2 ∧
    (useAll [] [plainName,dottedName] (newBroker [] dataName [])).1.topics =
      [⟨plainName,join [dataName,topicsName,plainName]⟩,
        ⟨dottedName,join [dataName,topicsName,plainName]⟩] ∧
    resolve [] (join [dataName,topicsName,escapingName]) = [] ∧
    (newBroker [] dataName (useAll [] [nestedName] (newBroker [] dataName [])).2).1.names =
      [plainName] := by
  refine ⟨fun h => ?_,by decide,by decide,by decide⟩
  exact h.distinct ⟨plainName,join [dataName,topicsName,plainName]⟩ (by decide)
    ⟨dottedName,join [dataName,topicsName,plainName]⟩ (by decide) (by decide) rfl

end GoCommon.ForgeBroker
