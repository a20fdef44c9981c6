import Jos.Files.Server

/-!
# Runs of the file server

Clients send any requests and change the shared pages in between. If every request is in order,
each is answered, and the directories change only by new entries.
-/

namespace Jos

open Logic

variable {m m' : Image} {s s' s0 s1 : Serv} {st st' st1 : Store} {d f n o i : Nat}
  {v v' v1 : View} {path name : List Byte} {req : Word} {C : Prop} {sent : Option Nat}

theorem fileOpen_runs (h : Tree st.mem) (path : List Byte) : ∃ r,
    FsRuns (fileOpen path) st r st ∧
      ∀ f, r = .ok f → ∃ dir, walkIn st.mem path = .found dir f := by
  have hwalk := walkPath_runs h.dirTree path
  cases hw : walkIn st.mem path with
  | found dir f =>
    rw [hw] at hwalk
    refine ⟨.ok f, .bind hwalk (.pure _ _), fun g hg => ⟨dir, ?_⟩⟩
    cases hg
    rfl
  | failed r =>
    rw [hw] at hwalk
    exact ⟨.error r, .bind hwalk (.pure _ _), fun g hg => by cases hg⟩
  | missing d name =>
    rw [hw] at hwalk
    exact ⟨_, .bind hwalk (.pure _ _), fun g hg => by cases hg⟩

theorem createOrOpen_runs (h : Tree v.store.mem)
    (hok : word v.fsreq reqOmodeAt &&& oCreat ≠ 0 → CreateOk v.store.mem path) :
    ∃ r v', ServRuns (createOrOpen path) v r v' ∧
      (SameFiles v v' ∧ (∀ f, r = .ok f → ∃ dir, walkIn v.store.mem path = .found dir f) ∨
        ∃ d f name st1, r = .ok f ∧ SameFiles { v with store := v'.store } v' ∧
          FileCreated path d f name v.store st1 v'.store) := by
  obtain ⟨v1, hmode, hsame1⟩ := reqWord_runs v reqOmodeAt
  obtain ⟨ro, hopen, hfound⟩ := fileOpen_runs h path
  have hopen1 : ∀ v2, SameFiles v v2 → ServRuns (onFs (fileOpen path)) v2 ro v2 := by
    intro v2 hsame
    rw [← hsame.store] at hopen
    exact onFs_runs hopen
  by_cases hcreat : word v.fsreq reqOmodeAt &&& oCreat ≠ 0
  · obtain ⟨r, st', hcreate, hres⟩ := fileCreate_spec h (hok hcreat)
    rw [← hsame1.store] at hcreate
    have hrun := onFs_runs hcreate
    rcases hres with ⟨⟨e, rfl⟩, rfl⟩ | ⟨d, f, name, st1, rfl, hnew⟩
    · have hback : SameFiles v { v1 with store := v.store } :=
        ⟨⟨rfl, hsame1.oFile, hsame1.fdRef⟩, hsame1.fsreq⟩
      obtain ⟨v2, hmode2, hsame2⟩ := reqWord_runs { v1 with store := v.store } reqOmodeAt
      have hsame := hback.trans hsame2
      by_cases hexcl : word v1.fsreq reqOmodeAt &&& oExcl = 0 ∧ e = -eFileExists
      · exact ⟨ro, v2, .bind hmode (.ite_pos hcreat (.bind hrun (.bind hmode2
          (.ite_pos hexcl (hopen1 v2 hsame))))), .inl ⟨hsame, hfound⟩⟩
      · exact ⟨.error e, v2, .bind hmode (.ite_pos hcreat (.bind hrun (.bind hmode2
          (.ite_neg hexcl (.pure _ _))))), .inl ⟨hsame, fun f hf => by cases hf⟩⟩
    · exact ⟨.ok f, { v1 with store := st' }, .bind hmode (.ite_pos hcreat (.bind hrun
        (.pure _ _))), .inr ⟨d, f, name, st1, rfl, ⟨⟨rfl, hsame1.oFile, hsame1.fdRef⟩,
        hsame1.fsreq⟩, hnew⟩⟩
  · exact ⟨ro, v1, .bind hmode (.ite_neg hcreat (hopen1 v1 hsame1)), .inl ⟨hsame1, hfound⟩⟩

/-- The entry `o` of the table has got a file. -/
def View.entered (v : View) (o f : Nat) : View :=
  { v with opentab := Function.update v.opentab o ({ v.opentab o with oFile := some f }) }

theorem SameFiles.served_entered (h : Tree v.store.mem) (hf : f ∈ files v.store.mem)
    (hsame : SameFiles (v.entered o f) v') : ServedIf C (some o) v v' := by
  have hstore : v'.store = v.store := hsame.store
  have hself : (v'.opentab o).oFile = some f := by
    rw [hsame.oFile]
    simp [View.entered]
  have hother : ∀ k ≠ o, (v'.opentab k).oFile = (v.opentab k).oFile := by
    intro k hk
    rw [hsame.oFile]
    simp [View.entered, hk]
  refine ⟨⟨by rw [hstore]; exact h, by rw [hstore]; exact .inl (.refl _), fun k g hg => ?_,
    fun k hk => ?_, hsame.fdRef⟩, by rw [hstore]; exact fun _ => id⟩
  · by_cases hko : k = o
    · rw [hko, hself] at hg
      obtain rfl := Option.some.inj hg
      rw [hstore]
      exact .inr hf
    · rw [hother k hko] at hg
      exact .inl hg
  · by_cases hko : k = o
    · rw [hko, hself]
      exact Option.some_ne_none f
    · rw [hother k hko]
      rcases hk with hk | hk
      · exact hk
      · exact absurd (Option.some.inj hk).symm hko

theorem enterOpenFile_runs (h : Tree v.store.mem) (path : List Byte) (o : Nat) :
    ∃ r v', ServRuns (enterOpenFile path o) v r v' ∧ ServedIf C r.2 v v' ∧
      v'.store = v.store := by
  obtain ⟨ro, hopen, hfound⟩ := fileOpen_runs h path
  have hrun := onFs_runs hopen
  cases ro with
  | error e =>
    exact ⟨(e, none), v, .bind hrun (.pure _ _), (SameFiles.refl v).toSameTable.served_same h, rfl⟩
  | ok f =>
    obtain ⟨dir, hw⟩ := hfound f rfl
    have hset : ServRuns (setOpenFile o fun x => { x with oFile := some f }) v ()
        (v.entered o f) := by
      rintro s rfl
      exact ⟨_, rfl, rfl⟩
    generalize hv1 : v.entered o f = v1 at hset
    obtain ⟨v2, hid, hsame2⟩ := setFd_runs v1 o fun fd =>
      { fd with fdFileId := (v1.opentab o).oFileid }
    obtain ⟨v3, hmode, hsame3⟩ := reqWord_runs v2 reqOmodeAt
    obtain ⟨v4, homode, hsame4⟩ := setFd_runs v3 o fun fd =>
      { fd with fdOmode := word v2.fsreq reqOmodeAt &&& oAccmode }
    obtain ⟨v5, hdev, hsame5⟩ := setFd_runs v4 o fun fd => { fd with fdDevId := devfileId }
    obtain ⟨v6, hmode', hsame6⟩ := reqWord_runs v5 reqOmodeAt
    obtain ⟨v', hlast, hsame7⟩ := setOpenFile_runs v6 o
      (g := fun x => { x with oMode := word v5.fsreq reqOmodeAt }) fun _ => rfl
    have hsame : SameFiles v1 v' :=
      ((((hsame2.trans hsame3).trans hsame4).trans hsame5).trans hsame6).trans hsame7
    rw [← hv1] at hsame
    refine ⟨(0, some o), v', .bind hrun (.bind hset (.get_bind fun s hs => ?_)),
      hsame.served_entered h (h.walk_found hw), hsame.store⟩
    rw [show s.opentab = v1.opentab from congrArg View.opentab hs]
    exact .bind hid (.bind hmode (.bind homode (.bind hdev (.bind hmode' (.bind hlast
      (.pure _ _))))))

/-- No nameless entry of a directory is a directory. -/
def NamelessRegular (m : Image) : Prop :=
  ∀ g ∈ files m, g ≠ sRoot → m g = 0 → fType m g ≠ ftypeDir

theorem entryAt_ne_sRoot {b j : Nat} (hb : 2 ≤ b) : entryAt b j ≠ sRoot := by
  unfold entryAt sRoot superAddr blksize
  omega

theorem FileCreated.regular (h : FileCreated path d f name st st1 st') (ht : Tree st.mem)
    (hreg : NamelessRegular st.mem) : fType st'.mem f ≠ ftypeDir := by
  have hgrown := h.grown
  have hf := hgrown.mem_files ht h.dir
  have hkept := hgrown.moves.kept h.dir.1 ht.layout
  have htype : fType st'.mem f = fType st1.mem f := (h.agree ht).type f hf
  rw [htype]
  by_cases hold : f ∈ Jos.files st.mem
  · have hsame := hgrown.moves.names h.dir.1 ht.layout f hold f (Nat.le_refl f)
      (by unfold maxnamelen; omega)
    rw [hkept.type f hold]
    refine hreg f hold ?_ (hsame ▸ hgrown.unnamed)
    obtain ⟨n, hn, j, -, rfl⟩ := hgrown.entry
    have hd := hgrown.sub d h.dir.1
    have hdir : fType st1.mem d = ftypeDir := (hkept.type d h.dir.1).trans h.dir.2
    have hmax := (hgrown.tree.size d hd hdir).2
    have hrange := hgrown.tree.layout.range d hd (some n) (show n < maxblocks by omega)
      (hgrown.tree.full d hd hdir n hn)
    exact entryAt_ne_sRoot (Nat.le_trans (two_le_firstData _) hrange.1)
  · exact (hgrown.fresh f hf hold).1

theorem FileCreated.sizesOk (h : FileCreated path d f name st st1 st') (ht : Tree st.mem)
    (hs : SizesOk st.mem) : SizesOk st'.mem := by
  intro g hg
  rw [h.files ht] at hg
  rw [show fSize st'.mem g = fSize st1.mem g from (h.agree ht).size g hg]
  by_cases hold : g ∈ Jos.files st.mem
  · by_cases hgd : g = d
    · have hdir := ((h.grown.moves.kept h.dir.1 ht.layout).type d h.dir.1).trans h.dir.2
      exact hgd ▸ (h.grown.tree.dir_full ⟨h.grown.sub d h.dir.1, hdir⟩).1
    · rw [(h.grown.moves.kept h.dir.1 ht.layout).size g hold hgd]
      exact hs g hold
  · rw [(h.grown.fresh g hg hold).2.1]
    exact Nat.zero_le _

theorem DirsSame.trans {m1 : Image} (h : DirsSame m m1) (h' : DirsSame m1 m') : DirsSame m m' := by
  have hdirs : ∀ d ∈ dirs m, d ∈ dirs m1 :=
    fun d hd => ⟨h.files_sub hd.1, (h.type d hd.1).trans hd.2⟩
  refine ⟨h'.files.trans h.files, fun g hg => ?_, fun g hg => ?_, fun d hd => ?_,
    fun d hd x hx => ?_⟩
  · exact (h'.type g (h.files_sub hg)).trans (h.type g hg)
  · exact SameOn.trans (h.names g hg) (h'.names g (h.files_sub hg))
  · exact (h'.size d (hdirs d hd)).trans (h.size d hd)
  · exact (h'.held d (hdirs d hd) x hx).trans (h.held d hd x hx)

theorem DirsChange.trans_same {m1 : Image} (h : DirsChange m m1) (h' : DirsSame m1 m') :
    DirsChange m m' := by
  rcases h with h | ⟨d, f, name, m2, hadd, hsame⟩
  · exact .inl (h.trans h')
  · exact .inr ⟨d, f, name, m2, hadd, hsame.trans h'⟩

theorem ServedIf.trans (h : ServedIf C none v v1)
    (h' : ServedIf C sent v1 v') (hd : DirsSame v1.store.mem v'.store.mem) :
    ServedIf C sent v v' := by
  obtain ⟨⟨h, hs⟩, ⟨h', hs'⟩⟩ := And.intro h h'
  refine ⟨⟨h'.tree, h.change.trans_same hd, fun i f hf => ?_, fun i hi => h'.set i ?_,
    fun i hi => h.fdRef i (h'.fdRef i hi)⟩, fun hC hsizes => hs' hC (hs hC hsizes)⟩
  · rcases h'.oFile i f hf with hf | hf
    · exact (h.oFile i f hf).imp_right hd.files_sub
    · exact .inr hf
  · exact hi.imp_left fun hi => h.set i (.inl hi)

theorem SameTable.trans_served (h : SameTable v v1)
    (h' : ServedIf C sent v1 v') : ServedIf C sent v v' := by
  obtain ⟨h', hs⟩ := h'
  refine ⟨⟨h'.tree, by rw [← h.store]; exact h'.change, fun i f hf => ?_, fun i hi => h'.set i ?_,
    fun i hi => h.fdRef i (h'.fdRef i hi)⟩, by rw [← h.store]; exact hs⟩
  · rw [← h.oFile]
    exact h'.oFile i f hf
  · rw [h.oFile]
    exact hi

theorem serveOpen_rest (h : Tree v.store.mem) (hf : f ∈ files v.store.mem)
    (hreg : word v.fsreq reqOmodeAt &&& oTrunc ≠ 0 → fType v.store.mem f ≠ ftypeDir) (o : Nat) :
    ∃ r v', ServRuns (do
      if (← reqWord reqOmodeAt) &&& oTrunc ≠ 0 then
        let r ← onFs (fileSetSize f 0)
        if r < 0 then
          return (r, none)
      enterOpenFile path o : ServM (Int × Option Nat)) v r v' ∧ ServedIf C r.2 v v' ∧
      DirsSame v.store.mem v'.store.mem := by
  obtain ⟨v1, hmode, hsame1⟩ := reqWord_runs v reqOmodeAt
  have hserved1 := hsame1.toSameTable.served_same (C := C) h
  have hdirs1 : DirsSame v.store.mem v1.store.mem := by
    rw [hsame1.store]
    exact .refl _
  by_cases htrunc : word v.fsreq reqOmodeAt &&& oTrunc ≠ 0
  · obtain ⟨st', hsize, ht, hd, hs⟩ := fileSetSize_tree h hf (hreg htrunc)
      (show 0 ≤ (0 : Word).toInt by decide)
    rw [← hsame1.store] at hsize hd hs
    have hrun := onFs_runs hsize
    have hserved2 : ServedIf C none v1 { v1 with store := st' } :=
      (SameFiles.refl v1).toSameTable.served ht (.inl hd) (fun _ => hs (by decide))
        (SameFiles.refl _).toSameTable
    obtain ⟨r, v', henter, hserved, hstore⟩ := enterOpenFile_runs (v := { v1 with store := st' })
      (C := C) ht path o
    have hdirs : DirsSame st'.mem v'.store.mem := by
      rw [hstore]
      exact .refl _
    exact ⟨r, v', .bind hmode (.ite_pos htrunc (.bind hrun (.ite_neg (by decide) henter))),
      (hserved1.trans hserved2 hd).trans hserved hdirs, (hdirs1.trans hd).trans hdirs⟩
  · obtain ⟨r, v', henter, hserved, hstore⟩ := enterOpenFile_runs (C := C) hserved1.1.tree path o
    have hdirs : DirsSame v1.store.mem v'.store.mem := by
      rw [hstore]
      exact .refl _
    exact ⟨r, v', .bind hmode (.ite_neg htrunc henter), hserved1.trans hserved hdirs,
      hdirs1.trans hdirs⟩

/-- A request to open a path with a mode is in order: the file can be created if it has to be,
and no directory is truncated. -/
structure OpenOk (m : Image) (path : List Byte) (omode : Word) : Prop where
  create : omode &&& oCreat ≠ 0 → CreateOk m path
  trunc : omode &&& oTrunc ≠ 0 →
    NamelessRegular m ∧ ∀ dir f, walkIn m path = .found dir f → fType m f ≠ ftypeDir

theorem serveOpen_served (h : Tree v.store.mem)
    (hok : OpenOk v.store.mem (pathIn v.fsreq) (word v.fsreq reqOmodeAt)) :
    ∃ r v', ServRuns serveOpen v r v' ∧ ServedIf C r.2 v v' := by
  obtain ⟨v1, hpath, hsame1⟩ := reqPath_runs v
  obtain ⟨r, o, v2, halloc, hsame2⟩ := openfileAlloc_runs v1
  have hsame := hsame1.trans hsame2
  have hserved := hsame.toSameTable.served_same (C := C) h
  have htree := hserved.1.tree
  by_cases hr : r < 0
  · exact ⟨(r, none), v2, .bind hpath (.bind halloc (.ite_pos hr (.pure _ _))), hserved⟩
  have hok : OpenOk v2.store.mem (pathIn v.fsreq) (word v2.fsreq reqOmodeAt) := by
    rw [hsame.store, hsame.fsreq]
    exact hok
  obtain ⟨rf, v3, hopen, hres⟩ := createOrOpen_runs htree hok.create
  have hserved3 : ServedIf C none v2 v3 ∧ v3.fsreq = v2.fsreq ∧ ∀ f, rf = .ok f →
      f ∈ files v3.store.mem ∧
        (word v2.fsreq reqOmodeAt &&& oTrunc ≠ 0 → fType v3.store.mem f ≠ ftypeDir) := by
    rcases hres with ⟨hsame3, hfound⟩ | ⟨d, f, name, st1, rfl, hsame3, hnew⟩
    · refine ⟨hsame3.toSameTable.served_same htree, hsame3.fsreq, fun f hf => ?_⟩
      obtain ⟨dir, hw⟩ := hfound f hf
      rw [hsame3.store]
      exact ⟨htree.walk_found hw, fun htrunc => (hok.trunc htrunc).2 dir f hw⟩
    · have hadd := hnew.entryAdded htree
      refine ⟨(SameFiles.refl v2).toSameTable.served (hnew.tree htree)
        (.inr ⟨d, f, name, _, hadd, .refl _⟩) (fun _ => hnew.sizesOk htree)
        hsame3.toSameTable, hsame3.fsreq, fun g hg => ?_⟩
      cases hg
      refine ⟨?_, fun htrunc => hnew.regular htree (hok.trunc htrunc).1⟩
      rw [hnew.files htree]
      exact hnew.grown.mem_files htree hnew.dir
  obtain ⟨hserved3, hfsreq, hf⟩ := hserved3
  have hserved' := hsame.toSameTable.trans_served hserved3
  cases rf with
  | error e =>
    exact ⟨(e, none), v3, .bind hpath (.bind halloc (.ite_neg hr (.bind hopen (.pure _ _)))),
      hserved'⟩
  | ok f =>
    obtain ⟨hmem, hreg⟩ := hf f rfl
    rw [← hfsreq] at hreg
    obtain ⟨r', v', hrest, hlast, hdirs⟩ := serveOpen_rest (C := C) hserved3.1.tree hmem hreg o
    exact ⟨r', v', .bind hpath (.bind halloc (.ite_neg hr (.bind hopen hrest))),
      hserved'.trans hlast hdirs⟩

def Serv.reqFile (s : Serv) : Option Nat := s.view.reqFile

/-- The request is in order: no directory is truncated, written to or given a size, numbers are in
range, a name ends within its field, and there are free blocks. -/
def InOrder (req : Word) (s : Serv) : Prop :=
  (req = fsreqOpen → OpenOk s.fs.mem (pathIn s.fsreq) (word s.fsreq reqOmodeAt)) ∧
  ∀ o f, s.reqEntry = some o → s.reqFile = some f →
    (req = fsreqSetSize →
      fType s.fs.mem f ≠ ftypeDir ∧ 0 ≤ (word s.fsreq reqSizeAt).toInt) ∧
    (req = fsreqRead → ReadOk s.fs.mem f (readCount s) (s.fd o).fdOffset) ∧
    (req = fsreqWrite → reqBufAt + (word s.fsreq reqNAt).toNat ≤ pgsize ∧
      (FileOp.write f (reqBuf s.fsreq) (word s.fsreq reqNAt) (s.fd o).fdOffset).InRange
        (files s.fs.mem) s.fs.mem) ∧
    (req = fsreqStat → NameEnds s.fs.mem f)

theorem reqEntry_of_reqFile (h : s.reqFile = some f) : ∃ o, s.reqEntry = some o := by
  unfold Serv.reqFile View.reqFile at h
  cases ho : s.view.reqEntry with
  | none =>
    rw [ho] at h
    cases h
  | some o => exact ⟨o, ho⟩

theorem reply_served {c : ServM Int}
    (h : ∃ r v', ServRuns c v r v' ∧ ServedIf C none v v') :
    ∃ r v', ServRuns (do return (← c, none) : ServM (Int × Option Nat)) v r v' ∧
      ServedIf C r.2 v v' := by
  obtain ⟨r, v', hrun, hserved⟩ := h
  exact ⟨(r, none), v', .bind hrun (.pure _ _), hserved⟩

/-- A request for a size asks for one in range. -/
def SizeInRange (req : Word) (s : Serv) : Prop :=
  req = fsreqSetSize → (word s.fsreq reqSizeAt).toNat ≤ maxfilesize

theorem serveRequest_served (h : Opened s.view) (hok : InOrder req s) :
    ∃ r v', ServRuns (serveRequest req) s.view r v' ∧
      ServedIf (SizeInRange req s) r.2 s.view v' := by
  obtain ⟨hopen, hother⟩ := hok
  have hreq : ∀ {P : Nat → Prop}, (∀ o f, s.reqEntry = some o → s.reqFile = some f → P f) →
      ∀ f, s.view.reqFile = some f → P f := by
    intro P hP f hf
    obtain ⟨o, ho⟩ := reqEntry_of_reqFile hf
    exact hP o f ho hf
  unfold serveRequest
  by_cases h1 : req = fsreqOpen
  · rw [if_pos h1]
    exact serveOpen_served h.tree (hopen h1)
  rw [if_neg h1]
  unfold handlers
  by_cases h2 : req = fsreqRead
  · rw [if_pos h2]
    exact reply_served (serveRead_served h fun o f ho hf => (hother o f ho hf).2.1 h2)
  rw [if_neg h2]
  by_cases h3 : req = fsreqStat
  · rw [if_pos h3]
    exact reply_served (serveStat_served h (hreq fun o f ho hf => (hother o f ho hf).2.2.2 h3))
  rw [if_neg h3]
  by_cases h4 : req = fsreqFlush
  · rw [if_pos h4]
    exact reply_served (serveFlush_served h)
  rw [if_neg h4]
  by_cases h5 : req = fsreqWrite
  · rw [if_pos h5]
    exact reply_served (serveWrite_served h fun o f ho hf => (hother o f ho hf).2.2.1 h5)
  rw [if_neg h5]
  by_cases h6 : req = fsreqSetSize
  · rw [if_pos h6]
    obtain ⟨r, v', hrun, hserved, hs⟩ :=
      serveSetSize_served h (hreq fun o f ho hf => (hother o f ho hf).1 h6)
    exact reply_served ⟨r, v', hrun, hserved, fun hmax => hs (hmax h6)⟩
  rw [if_neg h6]
  by_cases h7 : req = fsreqSync
  · rw [if_pos h7]
    exact reply_served (serveSync_served h)
  · rw [if_neg h7]
    exact ⟨(-eInval, none), s.view, .pure _ _, (SameFiles.refl _).toSameTable.served_same h.tree⟩

/-- While the server waits, clients change the pages that they share with it. A page with `struct
Fd` gets a second reference only if the server sends it, or a client has it. -/
structure ClientStep (sent : Option Nat) (s s' : Serv) : Prop where
  fs : s'.fs = s.fs
  opentab : s'.opentab = s.opentab
  fdRef : ∀ i, 1 < s'.fdRef i → 1 < s.fdRef i ∨ sent = some i

/-- A request in order is answered, and clients take over. -/
def ServStep (s s' : Serv) : Prop := ∃ req r s1, InOrder req s ∧ serveRequest req s = .ret r s1 ∧
  ClientStep r.2 s1 s'

theorem Opened.step (h : Opened s.view) (hserved : Served sent s.view s1.view)
    (hclient : ClientStep sent s1 s') : Opened s'.view := by
  have hstore : s'.view.store = s1.view.store := congrArg Fs.seen hclient.fs
  have htab : s'.view.opentab = s1.view.opentab := hclient.opentab
  refine ⟨by rw [hstore]; exact hserved.tree, fun i f hf => ?_, fun i hi => ?_⟩
  · rw [htab] at hf
    rw [hstore]
    rcases hserved.oFile i f hf with hf | hf
    · exact hserved.change.files_sub (h.mem i f hf)
    · exact hf
  · rw [htab]
    apply hserved.set
    rcases hclient.fdRef i hi with hi | hi
    · exact .inl (h.set i (hserved.fdRef i hi))
    · exact .inr hi

theorem ServStep.opened (h : Opened s.view) (hstep : ServStep s s') : Opened s'.view := by
  obtain ⟨req, r, s1, hok, hret, hclient⟩ := hstep
  obtain ⟨r', v', hrun, hserved, -⟩ := serveRequest_served h hok
  obtain ⟨rfl, rfl⟩ := hrun.eq_of_ret rfl hret
  exact h.step hserved hclient

theorem opened_init (h : Tree m) (hstart : ClientStep none (Serv.init (Fs.start m)) s) :
    Opened s.view := by
  have hstore : s.view.store = (Fs.start m).seen := congrArg Fs.seen hstart.fs
  refine ⟨by rw [hstore]; exact h, fun i f hf => ?_, fun i hi => ?_⟩
  · have htab : s.view.opentab = (Serv.init (Fs.start m)).opentab := hstart.opentab
    rw [htab] at hf
    cases hf
  · rcases hstart.fdRef i hi with hi | hi
    · exact absurd hi (Nat.not_lt_zero 1)
    · cases hi

/-- In every run of requests in order, the size of a directory is a multiple of `BLKSIZE` and not
negative, and a request changes directories only by a new entry with a name. -/
theorem directories_kept (h : Tree m) (hstart : ClientStep none (Serv.init (Fs.start m)) s0)
    (hrun : Relation.ReflTransGen ServStep s0 s) :
    (∀ d ∈ dirs s.fs.mem, 0 ≤ (fSize s.fs.mem d).toInt ∧ (fSize s.fs.mem d).toNat % blksize = 0) ∧
      ∀ req, InOrder req s → ∃ r s', serveRequest req s = .ret r s' ∧
        DirsChange s.fs.mem s'.fs.mem := by
  have hopened : Opened s.view := by
    induction hrun with
    | refl => exact opened_init h hstart
    | tail _ hstep ih => exact hstep.opened ih
  have htree : Tree s.fs.mem := hopened.tree
  refine ⟨fun d hd => ⟨htree.size_nonneg d hd.1, ?_⟩, fun req hok => ?_⟩
  · rw [(htree.size d hd.1 hd.2).1]
    exact Nat.mul_mod_left ..
  · obtain ⟨r, v', hserve, hserved, -⟩ := serveRequest_served hopened hok
    obtain ⟨s', hret, rfl⟩ := hserve s rfl
    exact ⟨r, s', hret, hserved.change⟩

def openPage (path : List Byte) (omode : Word) : Image :=
  setWord (fun i => path.getD i 0) reqOmodeAt omode

/-- The server on the small image with a request in its page. -/
def requested (page : Image) : Serv := { Serv.init (Fs.start smallImage) with fsreq := page }

theorem requested_start (page : Image) :
    ClientStep none (Serv.init (Fs.start smallImage)) (requested page) :=
  ⟨rfl, rfl, fun _ h => .inl h⟩

def createX : Serv := requested (openPage [slash, 120] oCreat)

theorem createX_inOrder : InOrder fsreqOpen createX := by
  have hwalk : walkIn smallImage [slash, 120] = .missing sRoot [120] := by decide +kernel
  have hfree : freeEntry smallImage sRoot ≠ none := by decide +kernel
  have hpath : pathIn (openPage [slash, 120] oCreat) = [slash, 120] := by decide +kernel
  have hmode : word (openPage [slash, 120] oCreat) reqOmodeAt = oCreat := by decide +kernel
  refine ⟨fun _ => ?_, fun o f ho => ?_⟩
  · show OpenOk smallImage (pathIn (openPage [slash, 120] oCreat))
      (word (openPage [slash, 120] oCreat) reqOmodeAt)
    rw [hpath, hmode]
    refine ⟨fun _ d name hw hnone => ?_, fun hc => absurd hc (by decide)⟩
    rw [hwalk] at hw
    cases hw
    exact absurd hnone hfree
  · have hnone : createX.reqEntry = none := by decide +kernel
    rw [hnone] at ho
    cases ho

/-- A file is created in the root directory. -/
theorem directories_kept_create : Tree smallImage ∧
    ∃ r s', serveRequest fsreqOpen (requested (openPage [slash, 120] oCreat)) = .ret r s' ∧
      DirsChange smallImage s'.fs.mem :=
  ⟨smallImage_tree,
    (directories_kept smallImage_tree (requested_start _) .refl).2 _ createX_inOrder⟩

theorem firstFd_ref (h : 1 < if i = 0 then 2 else 0) : 1 < s.fdRef i ∨ some 0 = some i := by
  by_cases hi0 : i = 0
  · exact .inr (congrArg some hi0.symm)
  · rw [if_neg hi0] at h
    exact absurd h (by decide)

@[irreducible] def rootOpened : Serv :=
  (serveRequest fsreqOpen (requested (openPage [slash] 0))).after (requested (openPage [slash] 0))

def shrinkRoot : Serv :=
  { rootOpened with
    fdRef := fun i => if i = 0 then 2 else 0
    fsreq := setWord (setWord (fun _ => 0) reqFileidAt 1024) reqSizeAt 1 }

@[irreducible] def rootShrunk : Serv := (serveRequest fsreqSetSize shrinkRoot).after shrinkRoot

def openNext : Serv := { rootShrunk with fsreq := openPage [slash, 120] 0 }

/-- A client opens the root directory, sets its size to 1 and opens a file. -/
theorem client_shrinks_root : Tree smallImage ∧
    ClientStep none (Serv.init (Fs.start smallImage)) (requested (openPage [slash] 0)) ∧
    serveRequest fsreqOpen (requested (openPage [slash] 0)) = .ret (0, some 0) rootOpened ∧
    ClientStep (some 0) rootOpened shrinkRoot ∧
    serveRequest fsreqSetSize shrinkRoot = .ret (0, none) rootShrunk ∧
    fType rootShrunk.fs.mem sRoot = ftypeDir ∧ fSize rootShrunk.fs.mem sRoot = 1 ∧
    ClientStep none rootShrunk openNext ∧
    serveRequest fsreqOpen openNext = .panic dirAssert := by
  have hopen : serveRequest fsreqOpen (requested (openPage [slash] 0)) =
      .ret (0, some 0) rootOpened := by
    unfold rootOpened
    exact Outcome.eq_ret _ (by decide +kernel)
  have hsize : serveRequest fsreqSetSize shrinkRoot = .ret (0, none) rootShrunk := by
    unfold rootShrunk
    exact Outcome.eq_ret _ (by decide +kernel)
  exact ⟨smallImage_tree, requested_start _, hopen, ⟨rfl, rfl, fun _ => firstFd_ref⟩, hsize,
    by decide +kernel, by decide +kernel, ⟨rfl, rfl, fun _ h => .inl h⟩,
    Outcome.eq_panic (by decide +kernel)⟩

end Jos
