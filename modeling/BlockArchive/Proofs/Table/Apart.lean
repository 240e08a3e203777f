import BlockArchive.Proofs.Listing
import BlockArchive.Proofs.Table.Alike

/-! # Tables of one directory leave one another alone

Many tables may be kept in one directory, and a program may have each of them open more than once.
`Slot` names an open table; the names of the tables are any words without a slash, also such as `a`
and `a.0001`.

* **`Hosts owner`**: what lies under the names of a table, and what it has open, are files that
  belong to it, where `owner` says which table a file belongs to.
* **`Beside`**: one table finds the same as on a disk on which it is alone, and every other table
  has files of its own.  A request to the table is answered the same on both sides
  (`Beside.exists_serve`); one to another table is in nobody's way (`Beside.serve_other`).
* **A whole run.** Requests to other tables change nothing that belongs to a table
  (`Hosts.leftAlone`), and in any company it answers as if it were alone (`stand_alone`). -/

namespace BlockArchive.Table

open FileSystem Attempt

/-- One of the places in which a program can hold an open table. -/
structure Slot where
  /-- The name of the table. -/
  name : String
  /-- Which of those for this name it is. -/
  number : Nat
deriving DecidableEq

/-- The open tables of a program. -/
abbrev Tables := Slot → Table

/-- Carries out a request on the table in a slot. -/
def serveIn (root : Path) (slot : Slot) (request : Request) : Action (Tables × Disk) Answer :=
  onFirst (fun tables => tables slot) (fun table tables => Function.update tables slot table)
    (serve root slot.name request)

/-- What a list of requests to tables of one directory leaves. -/
def together (root : Path) : List (Slot × Request) → Tables × Disk → Tables × Disk
  | [], state => state
  | (slot, request) :: requests, state =>
      together root requests ((serveIn root slot request).outcome state).2

/-- The answers to these requests, each with the slot it went to. -/
def answers (root : Path) :
    List (Slot × Request) → Tables × Disk → List (Slot × Except Error Answer)
  | [], _ => []
  | (slot, request) :: requests, state =>
      (slot, ((serveIn root slot request).outcome state).1) ::
        answers root requests ((serveIn root slot request).outcome state).2

/-- All tables of this name, and what they find on the disk, look the same in both states. -/
structure Sees (site : Site) (pairs : Pairing) (state state' : Tables × Disk) : Prop where
  tables : ∀ slot, slot.name = site.name → SameTable site pairs (state.1 slot) (state'.1 slot)
  twins : Twins site pairs state.2.files state'.2.files

variable {site other : Site} {pairs pairs' : Pairing} {files files' : FileSystem}
  {state state' : Tables × Disk} {names : String → Prop} {slot : Slot} {request : Request}
  {requests : List (Slot × Request)}

/-! ### One request -/

/-- A request to a table that finds the same on both sides. -/
theorem Sees.exists_serve (h : Sees site pairs state state') (hslot : slot.name = site.name)
    (request : Request) :
    ∃ pairs',
      StaysWithin site pairs pairs' state.2.files
        ((serveIn site.root slot request).outcome state).2.2.files ∧
      Sees site pairs' ((serveIn site.root slot request).outcome state).2
        ((serveIn site.root slot request).outcome state').2 ∧
      ((serveIn site.root slot request).outcome state).1 =
        ((serveIn site.root slot request).outcome state').1 := by
  obtain ⟨tables, disk⟩ := state
  obtain ⟨tables', disk'⟩ := state'
  have hagree := @agree_serve site pairs request pairs le_rfl (tables slot, disk)
    (tables' slot, disk') ⟨h.tables slot hslot, h.twins⟩
  rw [← hslot] at hagree
  obtain ⟨pairs', hwithin, ⟨htable, htwins⟩, hanswer⟩ := hagree
  refine ⟨pairs', hwithin, ⟨fun slot' hslot' => ?_, htwins⟩, ?_⟩
  · change SameTable site pairs'
      (Function.update tables slot _ slot') (Function.update tables' slot _ slot')
    by_cases heq : slot' = slot
    · subst heq
      rw [Function.update_self, Function.update_self]
      exact htable
    · rw [Function.update_of_ne heq, Function.update_of_ne heq]
      exact (h.tables slot' hslot').mono hwithin.keeps
  · exact hanswer.eq

theorem Sees.own_self (h : Sees site pairs state state) :
    Sees site (own fun i => pairs i i) state state where
  tables slot hslot := by
    obtain ⟨hdir, hname, hopen⟩ := sameTable_self_iff.1 (h.tables slot hslot)
    exact sameTable_self_iff.2 ⟨hdir, hname, fun handle hhandle => (hopen handle hhandle).own_self⟩
  twins := twins_own h.twins.left (fun role => (h.twins.node role).own_self) fun i hii =>
    (h.twins.made i i hii).1

/-- Two tables of one directory. -/
structure Neighbours (site other : Site) : Prop where
  root : other.root = site.root
  place : other.place = site.place
  name : other.name ≠ site.name

theorem Neighbours.symm (h : Neighbours site other) : Neighbours other site :=
  ⟨h.root.symm, h.place.symm, h.name.symm⟩

theorem Neighbours.at_ne (h : Neighbours site other) (role role' : Role) :
    other.at role ≠ site.at role' := by
  intro heq
  unfold Site.at at heq
  rw [h.place] at heq
  exact h.name (fileName_injective (by simpa using heq)).1

section others

variable (hneighbours : Neighbours site other)
  (hwithin : StaysWithin site pairs pairs' files files')
  (hrooted : files'.Rooted site.root site.place)
include hneighbours hwithin hrooted

theorem Twins.of_neighbour {seen : Pairing} {files'' : FileSystem}
    (h : Twins other seen files files'') (hown : ∀ i j, seen i j → ∀ k, ¬ pairs i k) :
    Twins other seen files' files'' where
  left := hneighbours.root ▸ hneighbours.place ▸ hrooted
  right := h.right
  node role := by
    rw [hwithin.node _ fun role' => hneighbours.at_ne role role']
    exact h.node role
  content i j hij := by
    rw [hwithin.content i (h.made i j hij).1 (hown i j hij)]
    exact h.content i j hij
  made i j hij := ⟨Nat.lt_of_lt_of_le (h.made i j hij).1 hwithin.size, (h.made i j hij).2⟩
  single := h.single

theorem Twins.own_of_neighbour {owned : FileId → Prop} (h : Twins other (own owned) files files) :
    Twins other (own owned) files' files' := by
  refine twins_own (hneighbours.root ▸ hneighbours.place ▸ hrooted) (fun role => ?_) fun i hi => ?_
  · rw [hwithin.node _ fun role' => hneighbours.at_ne role role']
    exact h.node role
  · exact Nat.lt_of_lt_of_le (h.made i i ⟨rfl, hi⟩).1 hwithin.size

end others

theorem serveIn_of_ne (root : Path) (request : Request) (state : Tables × Disk) {slot' : Slot}
    (hne : slot' ≠ slot) :
    ((serveIn root slot request).outcome state).2.1 slot' = state.1 slot' :=
  Function.update_of_ne hne _ _

theorem Sees.serve_of_neighbour {owned : FileId → Prop} (h : Sees other (own owned) state state)
    (hneighbours : Neighbours site other) (hslot : slot.name = site.name)
    (hwithin : StaysWithin site pairs pairs' state.2.files
      ((serveIn site.root slot request).outcome state).2.2.files)
    (hrooted : ((serveIn site.root slot request).outcome state).2.2.files.Rooted site.root
      site.place) :
    Sees other (own owned) ((serveIn site.root slot request).outcome state).2
      ((serveIn site.root slot request).outcome state).2 where
  tables slot' hslot' := by
    have hne : slot' ≠ slot := by
      rintro rfl
      exact hneighbours.name (hslot'.symm.trans hslot)
    rw [serveIn_of_ne _ _ _ hne]
    exact h.tables slot' hslot'
  twins := h.twins.own_of_neighbour hneighbours hwithin hrooted

/-! ### In company and alone -/

/-- In the one state the table of the site is in company, and finds the same as in the other. -/
structure Beside (names : String → Prop) (site : Site) (pairs : Pairing)
    (state state' : Tables × Disk) : Prop where
  sees : Sees site pairs state state'
  /-- Every other table has files of its own. -/
  others : ∀ other, Neighbours site other → names other.name →
    ∃ owned, Sees other (own owned) state state ∧ ∀ i j, pairs i j → ¬ owned i

namespace Beside

variable (h : Beside names site pairs state state')
include h

/-- A request to the table is answered the same on both sides. -/
theorem exists_serve (hslot : slot.name = site.name) (request : Request) :
    (∃ pairs', Beside names site pairs' ((serveIn site.root slot request).outcome state).2
      ((serveIn site.root slot request).outcome state').2) ∧
    ((serveIn site.root slot request).outcome state).1 =
      ((serveIn site.root slot request).outcome state').1 := by
  obtain ⟨pairs', hwithin, hsees, hanswer⟩ := h.sees.exists_serve hslot request
  refine ⟨⟨pairs', hsees, fun other hneighbours hname => ?_⟩, hanswer⟩
  obtain ⟨owned, hown, hfree⟩ := h.others other hneighbours hname
  refine ⟨owned, hown.serve_of_neighbour hneighbours hslot hwithin hsees.twins.left, ?_⟩
  -- a file that the table comes to see is new, and nobody else had it before
  intro i j hij hi
  rcases hwithin.fresh i j hij with hij | hsize
  · exact hfree i j hij hi
  · exact absurd (hown.twins.made i i ⟨rfl, hi⟩).1 (Nat.not_lt.2 hsize)

/-- A request to another table leaves all that the table finds as it is. -/
theorem serve_other (hslot : slot.name ≠ site.name) (hname : names slot.name)
    (hslash : '/' ∉ slot.name.toList) (request : Request) :
    Beside names site pairs ((serveIn site.root slot request).outcome state).2 state' := by
  let acting : Site := ⟨site.root, site.place, slot.name, hslash⟩
  have hacting : Neighbours site acting := ⟨rfl, rfl, hslot⟩
  obtain ⟨owned, hown, hfree⟩ := h.others acting hacting hname
  obtain ⟨pairs', hwithin, hsees, -⟩ := @Sees.exists_serve acting _ _ _ slot hown rfl request
  refine ⟨⟨fun slot' hslot' => ?_, ?_⟩, fun other hneighbours hother => ?_⟩
  · have hne : slot' ≠ slot := by
      rintro rfl
      exact hslot hslot'
    rw [serveIn_of_ne _ _ _ hne]
    exact h.sees.tables slot' hslot'
  · exact h.sees.twins.of_neighbour hacting.symm hwithin hsees.twins.left
      fun i j hij k hik => hfree i j hij hik.2
  · by_cases heq : other.name = slot.name
    -- the table that acted has what it had before, and what it made
    · obtain rfl : other = acting := Site.ext hneighbours.root hneighbours.place heq
      refine ⟨fun i => pairs' i i, hsees.own_self, fun i j hij hi => ?_⟩
      rcases hwithin.fresh i i hi with hi | hsize
      · exact hfree i j hij hi.2
      · exact absurd (h.sees.twins.made i j hij).1 (Nat.not_lt.2 hsize)
    · obtain ⟨owned', hown', hfree'⟩ := h.others other hneighbours hother
      have hapart : Neighbours acting other := ⟨hneighbours.root, hneighbours.place, heq⟩
      exact ⟨owned', @Sees.serve_of_neighbour acting _ _ _ _ _ _ _ hown' hapart rfl hwithin
        hsees.twins.left, hfree'⟩

variable (hslash : ∀ name, names name → '/' ∉ name.toList)
  (hrequests : ∀ request ∈ requests, names request.1.name)
include hslash hrequests

theorem together_others (hothers : ∀ request ∈ requests, request.1.name ≠ site.name) :
    Beside names site pairs (together site.root requests state) state' := by
  induction requests generalizing state with
  | nil => exact h
  | cons request requests ih =>
      obtain ⟨slot, request⟩ := request
      have hname : names slot.name := hrequests _ List.mem_cons_self
      exact ih
        (h.serve_other (hothers _ List.mem_cons_self) hname (hslash _ hname) request)
        (fun later hmem => hrequests later (List.mem_cons_of_mem _ hmem))
        fun later hmem => hothers later (List.mem_cons_of_mem _ hmem)

theorem exists_together :
    (∃ pairs', Beside names site pairs' (together site.root requests state)
      (together site.root (requests.filter fun request => request.1.name = site.name) state')) ∧
    (answers site.root requests state).filter (fun answer => answer.1.name = site.name) =
      answers site.root (requests.filter fun request => request.1.name = site.name) state' := by
  induction requests generalizing pairs state state' with
  | nil => exact ⟨⟨pairs, h⟩, rfl⟩
  | cons request requests ih =>
      obtain ⟨slot, request⟩ := request
      have hrest : ∀ request ∈ requests, names request.1.name :=
        fun later hmem => hrequests later (List.mem_cons_of_mem _ hmem)
      by_cases hslot : slot.name = site.name
      · obtain ⟨⟨pairs', hnext⟩, hanswer⟩ := h.exists_serve hslot request
        obtain ⟨hpairs, hanswers⟩ := ih hnext hrest
        rw [List.filter_cons_of_pos (by simpa using hslot)]
        refine ⟨hpairs, ?_⟩
        rw [answers, answers, List.filter_cons_of_pos (by simpa using hslot), hanswer, hanswers]
      · have hname : names slot.name := hrequests _ List.mem_cons_self
        obtain ⟨hpairs, hanswers⟩ :=
          ih (h.serve_other hslot hname (hslash _ hname) request) hrest
        rw [List.filter_cons_of_neg (by simpa using hslot)]
        refine ⟨hpairs, ?_⟩
        rw [answers, List.filter_cons_of_neg (by simpa using hslot), hanswers]

end Beside

/-! ### Files that belong to tables -/

variable {owner : FileId → String} {root : Path} {place : Location} {name : String}

/-- A file that was made, and that belongs to the table. -/
def Belongs (owner : FileId → String) (name : String) (files : FileSystem) (id : FileId) : Prop :=
  id < files.contents.size ∧ owner id = name

/-- The tables lie in the directory `place`, and each finds there, and has open, only files that
belong to it, or directories.  So none of the names stands for a link, and no two tables share a
file. -/
structure Hosts (names : String → Prop) (owner : FileId → String) (root : Path) (place : Location)
    (state : Tables × Disk) : Prop where
  rooted : state.2.files.Rooted root place
  node : ∀ name role node, names name →
    state.2.files.node? (place ++ [fileName name role]) = some node →
      node = .directory ∨ ∃ id, node = .file id ∧ Belongs owner name state.2.files id
  table : ∀ slot, names slot.name → (state.1 slot).dir = root ∧ (state.1 slot).name = slot.name
  handle : ∀ slot handle, names slot.name → (state.1 slot).HasOpen handle →
    handle = .directory ∨
      ∃ id writable, handle = .file id writable ∧ Belongs owner slot.name state.2.files id

namespace Hosts

variable (h : Hosts names owner root place state)
include h

theorem sees (hslash : '/' ∉ name.toList) (hname : names name) :
    Sees ⟨root, place, name, hslash⟩ (own (Belongs owner name state.2.files)) state state where
  tables slot hslot := by
    obtain rfl : slot.name = name := hslot
    obtain ⟨hdir, htable⟩ := h.table slot hname
    refine sameTable_self_iff.2 ⟨hdir, htable, fun handle hopen => ?_⟩
    rcases h.handle slot handle hname hopen with rfl | ⟨id, writable, rfl, hbelongs⟩
    · exact .directory
    · exact .file writable ⟨rfl, hbelongs⟩
  twins := by
    refine twins_own h.rooted (fun role => ?_) fun i hbelongs => hbelongs.1
    unfold Site.at
    cases hnode : state.2.files.node? (place ++ [fileName name role]) with
    | none => exact .none
    | some node =>
        rcases h.node name role node hname hnode with rfl | ⟨id, rfl, hbelongs⟩
        · exact .directory
        · exact .file ⟨rfl, hbelongs⟩

theorem beside (hslash : '/' ∉ name.toList) (hname : names name) :
    Beside names ⟨root, place, name, hslash⟩ (own (Belongs owner name state.2.files)) state
      state where
  sees := h.sees hslash hname
  others other hneighbours hother := by
    obtain ⟨root', place', name', hslash'⟩ := other
    obtain ⟨rfl, rfl, hne⟩ := hneighbours
    refine ⟨Belongs owner name' state.2.files, h.sees hslash' hother, ?_⟩
    rintro i _ ⟨rfl, hbelongs⟩ hbelongs'
    exact hne (hbelongs'.2.symm.trans hbelongs.2)

end Hosts

/-! ### In any company -/

/-- Nothing that belongs to the table has changed. -/
structure LeftAlone (owner : FileId → String) (place : Location) (name : String)
    (state state' : Tables × Disk) : Prop where
  table : ∀ slot, slot.name = name → state'.1 slot = state.1 slot
  node : ∀ role, state'.2.files.node? (place ++ [fileName name role]) =
    state.2.files.node? (place ++ [fileName name role])
  content : ∀ id, Belongs owner name state.2.files id →
    state'.2.files.content id = state.2.files.content id

/-- The table has the same counters in both states, and its files hold the same. -/
structure LooksSame (place : Location) (name : String) (state state' : Tables × Disk) : Prop where
  shut : ∀ slot, slot.name = name → (state.1 slot).shut = (state'.1 slot).shut
  folder : ∀ role, state.2.files.folder place (fileName name role) =
    state'.2.files.folder place (fileName name role)

theorem Sees.looksSame (h : Sees site pairs state state') :
    LooksSame site.place site.name state state' where
  shut slot hslot := (h.tables slot hslot).shut.symm
  folder role := by
    have hnode := h.twins.node role
    unfold Site.at at hnode
    unfold folder
    rcases sameNode_cases hnode with ⟨hnode, hnode'⟩ | ⟨hnode, hnode'⟩ | ⟨i, j, hnode, hnode', hij⟩
    all_goals rw [hnode, hnode']
    exact congrArg some (h.twins.content i j hij)

theorem together_of_ne {slot : Slot} (hothers : ∀ request ∈ requests, request.1 ≠ slot) :
    (together root requests state).1 slot = state.1 slot := by
  induction requests generalizing state with
  | nil => rfl
  | cons request requests ih =>
      obtain ⟨acting, request⟩ := request
      rw [together, ih fun later hmem => hothers later (List.mem_cons_of_mem _ hmem)]
      exact serveIn_of_ne _ _ _ (hothers _ List.mem_cons_self).symm

/-- Requests to other tables change nothing that belongs to the table. -/
theorem Hosts.leftAlone (h : Hosts names owner root place state)
    (hslash : ∀ name, names name → '/' ∉ name.toList) (hname : names name)
    (hrequests : ∀ request ∈ requests, names request.1.name)
    (hothers : ∀ request ∈ requests, request.1.name ≠ name) :
    LeftAlone owner place name state (together root requests state) := by
  have hbeside := (h.beside (hslash name hname) hname).together_others hslash hrequests hothers
  refine ⟨fun slot hslot => ?_, fun role => ?_, fun id hbelongs => ?_⟩
  · refine together_of_ne fun request hmem heq => ?_
    exact hothers request hmem (heq ▸ hslot)
  · have hnode := hbeside.sees.twins.node role
    unfold Site.at at hnode
    rcases sameNode_cases hnode with ⟨hnode, hnode'⟩ | ⟨hnode, hnode'⟩ |
      ⟨i, j, hnode, hnode', heq, -⟩
    all_goals rw [hnode, hnode']
    rw [heq]
  · exact hbeside.sees.twins.content id id ⟨rfl, hbelongs⟩

/-! ### Directories with given files -/

/-- The table that a file of a list belongs to. -/
def ownerIn (kept : List (String × Role × Bytes)) (id : FileId) : String :=
  match kept[id]? with
  | some file => file.1
  | none => ""

/-- The files of a list, under the names that their tables give them. -/
def listingOf (kept : List (String × Role × Bytes)) : List (String × Bytes) :=
  kept.map fun file => (fileName file.1 file.2.1, file.2.2)

theorem hosts_ofListing (names : String → Prop) (kept : List (String × Role × Bytes)) :
    Hosts names (ownerIn kept) ⟨["", "a"]⟩ ["a"]
      (fun slot => unopened ⟨["", "a"]⟩ slot.name,
        Disk.ofFiles (.ofListing (listingOf kept))) where
  rooted := {
    named := resolve_of_sameWays (.inr rfl) (SameWays.refl _) (resolve_ofListing _) rfl
    directory := rfl
    home := rfl }
  node name role node _ hnode := by
    rcases node?_ofListing (listingOf kept) (fileName name role) with ⟨hnone, -⟩ |
      ⟨id, content, hfile, hid, -⟩
    · exact absurd (hnone.symm.trans hnode) (by simp)
    · obtain rfl : node = .file id := Option.some.inj (hnode.symm.trans hfile)
      have hkept : ∃ file, kept[id]? = some file ∧
          (fileName file.1 file.2.1, file.2.2) = (fileName name role, content) := by
        simpa only [listingOf, List.getElem?_map, Option.map_eq_some_iff] using hid
      obtain ⟨file, hfile, heq⟩ := hkept
      refine .inr ⟨id, rfl, ?_, ?_⟩
      · have := (List.getElem?_eq_some_iff.1 hid).1
        simpa [Disk.ofFiles, ofListing] using this
      · rw [ownerIn, hfile]
        exact (fileName_injective (congrArg Prod.fst heq)).1
  table _ _ := ⟨rfl, rfl⟩
  handle _ _ _ hopen := by simp [HasOpen, unopened] at hopen

/-- Tables of one directory do not interfere.  The names of their files do not collide, neither with
one another nor with the lock file.  Whatever is asked of other tables, even if it fails, changes
nothing that belongs to a table; and whatever is asked of it in between, it answers as if it were
alone, and has the same counters and the same files in the end. -/
theorem stand_alone (hslash : ∀ name, names name → '/' ∉ name.toList)
    (h : Hosts names owner root place state) (hname : names name)
    (hrequests : ∀ request ∈ requests, names request.1.name) :
    ((∀ a b role role', fileName a role = fileName b role' → a = b ∧ role = role') ∧
      ∀ a role, fileName a role ≠ DirectoryLock.fileName) ∧
    ((∀ request ∈ requests, request.1.name ≠ name) →
      LeftAlone owner place name state (together root requests state)) ∧
    (answers root requests state).filter (fun answer => answer.1.name = name) =
      answers root (requests.filter fun request => request.1.name = name) state ∧
    LooksSame place name (together root requests state)
      (together root (requests.filter fun request => request.1.name = name) state) := by
  obtain ⟨⟨pairs, hbeside⟩, hanswers⟩ :=
    (h.beside (hslash name hname) hname).exists_together hslash hrequests
  exact ⟨⟨fun _ _ _ _ => fileName_injective, fileName_ne_lock⟩,
    h.leftAlone hslash hname hrequests, hanswers, hbeside.sees.looksSame⟩

/-- The files of two tables, one of which is called as a segment of the other begins. -/
def dotted : List (String × Role × Bytes) :=
  [("a.0001", .index, IndexEntry.sentinel.encode), ("a.0001", .segment 0, []),
    ("a", .index, IndexEntry.sentinel.encode), ("a", .segment 1, [7])]

/-- Requests to both, in turn: the other table empties its segment 1, which has the name of a file
of the first but for the ending, and deletes it in the end. -/
def dottedRequests : List (Slot × Request) :=
  [(⟨"a.0001", 0⟩, .reopen 8), (⟨"a", 0⟩, .reopen 1), (⟨"a.0001", 0⟩, .append 0 [1, 2]),
    (⟨"a", 0⟩, .append 0 [3]), (⟨"a", 0⟩, .append 1 [4]), (⟨"a.0001", 0⟩, .retrieve 0),
    (⟨"a", 0⟩, .truncate 1), (⟨"a.0001", 0⟩, .size)]

/-- A table answers as if it were alone, also in the company of one with such a name. -/
theorem stand_alone_dotted :
    Hosts (fun name => name = "a" ∨ name = "a.0001") (ownerIn dotted) ⟨["", "a"]⟩ ["a"]
        (fun slot => unopened ⟨["", "a"]⟩ slot.name,
          Disk.ofFiles (.ofListing (listingOf dotted))) ∧
      LooksSame ["a"] "a.0001"
        (together ⟨["", "a"]⟩ dottedRequests
          (fun slot => unopened ⟨["", "a"]⟩ slot.name,
            Disk.ofFiles (.ofListing (listingOf dotted))))
        (together ⟨["", "a"]⟩
          (dottedRequests.filter fun request => request.1.name = "a.0001")
          (fun slot => unopened ⟨["", "a"]⟩ slot.name,
            Disk.ofFiles (.ofListing (listingOf dotted)))) := by
  have hhosts := hosts_ofListing (fun name => name = "a" ∨ name = "a.0001") dotted
  refine ⟨hhosts, (stand_alone ?_ hhosts (.inr rfl) ?_).2.2.2⟩
  · rintro _ (rfl | rfl) <;> decide
  · decide

end BlockArchive.Table
