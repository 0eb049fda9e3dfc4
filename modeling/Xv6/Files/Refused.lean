import Xv6.Files.Full
/-!
# Files.Refused — calls on a full directory

What `link`, `mkdir`, `mknod` and `open` with `O_CREATE` do in a directory without room.  They fail, and leave
everything as it was, where they would not have added an entry; to add one stops the kernel.
-/
namespace Xv6
namespace Files

open Prog (wp wpt wp_bind wp_read wp_modify wp_pure)

variable {s t u v w x y z : State} {i j p dp : Nat} {name : Name} {path : Path}

def Refused (s : State) (c : F Int) : Prop := ∃ t l, c s = ⟨.ok (-1), t, l⟩ ∧ Unchanged s t

/-- **The call is refused where `C` holds, and only there**; where it is not refused and the name is not there, the kernel
stops. -/
structure Settles (s : State) (dp : Nat) (name : Name) (c : F Int) (C : Prop) : Prop where
  refused : Refused s c ↔ C
  stops   : s.lookup dp name = none → ¬ C → ∃ e, (c s).res = .error e

theorem settles_of_wp {c : F Int} {C : Prop} (h : wp c (fun r t =>
    (C ∧ r = -1 ∧ Unchanged s t) ∨ (¬ C ∧ r ≠ -1 ∧ s.lookup dp name ≠ none)) (fun _ => ¬ C) s) : Settles s dp name c C := by
  rcases hrun : c s with ⟨e | r, t, l⟩
  · have hn := h.error (by rw [hrun])
    refine ⟨iff_of_false ?_ hn, fun _ _ => ⟨e, by rw [hrun]⟩⟩
    rintro ⟨t', l', ht, -⟩
    rw [hrun] at ht
    cases ht
  · have hq := h.ok (by rw [hrun])
    rw [hrun] at hq
    rcases hq with ⟨hC, rfl, hsame⟩ | ⟨hC, hr, hf⟩
    · exact ⟨iff_of_true ⟨t, l, hrun, hsame⟩ hC, fun _ hn => absurd hC hn⟩
    · refine ⟨iff_of_false ?_ hC, fun hnone => absurd hnone hf⟩
      rintro ⟨t', l', ht, -⟩
      rw [hrun] at ht
      cases ht
      exact hr rfl

/-! ## `mkdir` and `mknod` -/

def State.begun (s : State) : State := { s with outstanding := s.outstanding + 1 }

theorem begun_tree (s : State) : SameTree s s.begun := ⟨rfl, fun _ => rfl, fun _ => rfl, fun _ => rfl⟩

theorem Calm.begun (h : Calm s p) : Calm s.begun p where
  tree := (begun_tree s).tree h.tree (h.tree.good.counts _ _) h.tree.kept h.tree.refs h.tree.free
  cwd := h.cwd
  cwdDir := h.cwdDir
  op := Int.add_nonneg h.op (by decide)
  closed := h.closed

theorem begun_parent (h : s.parent (s.origin p path) (components path) = some (dp, name)) :
    s.begun.parent (s.begun.origin p path) (components path) = some (dp, name) := by
  rw [(begun_tree s).parent]
  exact h

theorem there_begun : There s.begun p path dp name j ↔ There s p path dp name j := by
  have hfits : Fits s.begun = Fits s := fits_congr rfl rfl
  have henough := enough_congr (t := s.begun) (s := s) rfl rfl (begun_tree s).child rfl p path (components path).dropLast
  unfold There
  rw [(begun_tree s).lookup, hfits, henough]

theorem Holds.endOp (h : Holds s.begun none v) (c : Int) : SameDisk s { v with outstanding := c } :=
  ⟨h.same.good.counts _ _, h.same.disk⟩

theorem make_wp (h : Calm s p) (hp : s.parent (s.origin p path) (components path) = some (dp, name)) (hfull : Full s dp)
    {type : FileType} (hfile : type ≠ .file) (hfree : type ≠ .free) (major minor : BitVec 16) :
    wp (make p path type major minor) (fun r v => (∃ j, There s p path dp name j) ∧ r = -1 ∧ SameDisk s v)
      (fun _ => ¬ ∃ j, There s p path dp name j) s.begun := by
  unfold make
  rw [wp_bind]
  have hcreate := create_wp h.begun (begun_parent hp) ((begun_tree s).full hfull) hfree major minor
  refine hcreate.mono (fun r x hx => ?_) fun _ he => ?_
  · obtain ⟨j, hj, hx⟩ := hx
    rw [if_neg fun hc => hfile hc.1] at hx
    obtain ⟨rfl, hx⟩ := hx
    exact ⟨⟨j, there_begun.1 hj⟩, rfl, hx.endOp _⟩
  · exact fun ⟨j, hj⟩ => he.1 j (there_begun.2 hj)

theorem sysMkdir_settles (h : Calm s p) (hp : s.parent (s.origin p path) (components path) = some (dp, name))
    (hfull : Full s dp) : Settles s dp name (sysMkdir p (some path)) (∃ j, There s p path dp name j) := by
  have hmake : wp (sysMkdir p (some path)) (fun r v => (∃ j, There s p path dp name j) ∧ r = -1 ∧ SameDisk s v)
      (fun _ => ¬ ∃ j, There s p path dp name j) s := make_wp h hp hfull (by decide) (by decide) 0 0
  refine settles_of_wp ((hmake.and ((sysMkdir_still p (some path)).wp s)).imp fun r v hv => ?_)
  obtain ⟨⟨hC, hr, hsame⟩, hacct⟩ := hv
  exact .inl ⟨hC, hr, .of_acct hsame (hacct.trans (add_zero _))⟩

theorem sysMknod_settles (h : Calm s p) (hp : s.parent (s.origin p path) (components path) = some (dp, name))
    (hfull : Full s dp) (major minor : Option (BitVec 32)) : Settles s dp name (sysMknod p (some path) major minor)
      (major = none ∨ minor = none ∨ ∃ j, There s p path dp name j) := by
  have hfails : wp (do beginOp; fails : F Int) (fun r v => r = -1 ∧ SameDisk s v) (fun _ => False) s :=
    ⟨rfl, ⟨h.tree.good.counts _ _, rfl⟩⟩
  have hmake : wp (sysMknod p (some path) major minor)
      (fun r v => (major = none ∨ minor = none ∨ ∃ j, There s p path dp name j) ∧ r = -1 ∧ SameDisk s v)
      (fun _ => ¬ (major = none ∨ minor = none ∨ ∃ j, There s p path dp name j)) s := by
    match major, minor with
    | none, _ => exact hfails.mono (fun _ _ hv => ⟨.inl rfl, hv⟩) fun _ he => he.elim
    | some _, none => exact hfails.mono (fun _ _ hv => ⟨.inr (.inl rfl), hv⟩) fun _ he => he.elim
    | some major, some minor =>
      have hwp : wp (sysMknod p (some path) (some major) (some minor))
          (fun r v => (∃ j, There s p path dp name j) ∧ r = -1 ∧ SameDisk s v)
          (fun _ => ¬ ∃ j, There s p path dp name j) s :=
        make_wp h hp hfull (by decide) (by decide) (major.setWidth 16) (minor.setWidth 16)
      exact hwp.mono (fun _ _ hv => ⟨.inr (.inr hv.1), hv.2⟩) fun _ he => by simpa using he
  refine settles_of_wp ((hmake.and ((sysMknod_still p (some path) major minor).wp s)).imp fun r v hv => ?_)
  obtain ⟨⟨hC, hr, hsame⟩, hacct⟩ := hv
  exact .inl ⟨hC, hr, .of_acct hsame (hacct.trans (add_zero _))⟩

/-! ## `open` -/

/-- All files are open, or the process has no free descriptor. -/
def NoDescriptor (s : State) (p : Nat) : Prop := (∀ f, (s.file f).ref ≠ 0) ∨ ∀ fd < nofile, s.ofile p fd ≠ none

theorem openFails_same (hs : Tree s) (hx : Inside s j x) :
    wp (openFails j) (fun r v => r = -1 ∧ SameDisk s v) (fun _ => False) x := by
  obtain ⟨v, hleave, hv⟩ := hx.leave hs
  unfold openFails
  rw [wp_bind]
  exact Prog.wp_of_run hleave ⟨rfl, hv.same.good.counts _ _, hv.same.disk⟩

theorem openFile_same (hs : Tree s) (hx : Inside s j x) (htab : x.tables = s.tables) (hc : Closed s) (omode : BitVec 32) :
    wp (openFile p j omode) (fun r v => (NoDescriptor s p ∧ r = -1 ∧ SameDisk s v) ∨ (¬ NoDescriptor s p ∧ r ≠ -1))
      (fun _ => ¬ NoDescriptor s p) x := by
  have hfile : x.file = s.file := congrArg (fun a : Tables => a.1) htab
  have hofile : x.ofile = s.ofile := congrArg (fun a : Tables => a.2.1) htab
  have hrefused : NoDescriptor s p → wp (openFails j)
      (fun r v => (NoDescriptor s p ∧ r = -1 ∧ SameDisk s v) ∨ (¬ NoDescriptor s p ∧ r ≠ -1))
        (fun _ => ¬ NoDescriptor s p) x :=
    fun hno => (openFails_same hs hx).mono (fun _ _ hv => .inl ⟨hno, hv⟩) fun _ he => he.elim
  unfold openFile filealloc fdalloc
  rw [wp_bind, wp_bind, wp_read]
  cases hf : (List.finRange nfile).find? (fun f => decide ((x.file f).ref = 0)) with
  | none =>
    rw [List.find?_eq_none] at hf
    have hno : NoDescriptor s p := .inl fun f => by simpa [hfile] using hf f (List.mem_finRange f)
    exact hrefused hno
  | some f =>
    have href : (x.file f).ref = 0 := by simpa using List.find?_some hf
    have htype : (x.file f).type = .none := hfile ▸ hc f (hfile ▸ href)
    rw [wp_bind, wp_modify, wp_pure, wp_bind, wp_bind, wp_read]
    cases hfd : (List.range nofile).find? (fun fd => ((x.setFile f { x.file f with ref := 1 }).ofile p fd).isNone) with
    | none =>
      rw [List.find?_eq_none] at hfd
      have hno : NoDescriptor s p := .inr fun fd hlt => by
        have hsome := hfd fd (List.mem_range.2 hlt)
        rw [show (x.setFile f { x.file f with ref := 1 }).ofile = s.ofile from hofile] at hsome
        simpa using hsome
      rw [wp_pure, wp_bind]
      refine Prog.wp_of_run (fileclose_fresh (v := { x.file f with ref := 1 }) rfl htype (setFile_file x f _)) ?_
      rw [setFile_setFile (by rw [← href])]
      exact hrefused hno
    | some fd =>
      have hnone := List.find?_some hfd
      have hmem := List.mem_of_find?_eq_some hfd
      change (x.ofile p fd).isNone = true at hnone
      have hyes : ¬ NoDescriptor s p := by
        rintro (hno | hno)
        · exact hno f (hfile ▸ href)
        · refine hno fd (List.mem_range.1 hmem) ?_
          rw [← hofile]
          simpa using hnone
      have hreturns : wp (do
          iunlock j
          endOp
          Prog.modify (fun s => s.setFile f { s.file f with
            type := .inode, ip := j, off := 0, readable := !omode.getLsbD 0,
             writable := omode.getLsbD 0 || omode.getLsbD 1 })
          pure (fd : Int) : F Int) (fun r _ => r ≠ -1) (fun _ => True)
          ((x.setFile f { x.file f with ref := 1 }).setOfile p fd (some f)) :=
        Prog.wp_bind_any fun _ _ => Prog.wp_bind_any fun _ _ => Prog.wp_bind_any fun _ _ => show (fd : Int) ≠ -1 by omega
      rw [wp_bind, wp_modify, wp_pure]
      exact hreturns.mono (fun _ _ hr => .inr ⟨hyes, hr⟩) fun _ _ => hyes

/-- **`open` with `O_CREATE` fails where the name is there**, unless it is of a file and there is a descriptor for it. -/
theorem sysOpen_settles (h : Calm s p) (hp : s.parent (s.origin p path) (components path) = some (dp, name))
    (hfull : Full s dp) {omode : BitVec 32} (hm : omode.getLsbD 9 = true) :
    Settles s dp name (sysOpen p (some path) (some omode))
      (∃ j, There s p path dp name j ∧ ((s.dinode j).type ≠ .file ∨ NoDescriptor s p)) := by
  have hwp : wp (sysOpen p (some path) (some omode)) (fun r v =>
      ((∃ j, There s p path dp name j ∧ ((s.dinode j).type ≠ .file ∨ NoDescriptor s p)) ∧ r = -1 ∧ SameDisk s v) ∨
      (¬ (∃ j, There s p path dp name j ∧ ((s.dinode j).type ≠ .file ∨ NoDescriptor s p)) ∧
        r ≠ -1 ∧ s.lookup dp name ≠ none))
      (fun _ => ¬ ∃ j, There s p path dp name j ∧ ((s.dinode j).type ≠ .file ∨ NoDescriptor s p)) s := by
    have hopen : openInode p path omode = create p path .file 0 0 := if_pos hm
    unfold sysOpen beginOp
    dsimp only
    rw [hopen, wp_bind, wp_modify, wp_bind]
    have hfree : FileType.file ≠ .free := by decide
    have hcreate := (create_wp h.begun (begun_parent hp) ((begun_tree s).full hfull) hfree 0 0).and
      ((create_moves p path .file 0 0).wp s.begun)
    refine hcreate.mono (fun r y hy => ?_) fun _ he => fun ⟨j, hj, _⟩ => he.1 j (there_begun.2 hj)
    obtain ⟨⟨j, hj, hy⟩, hacct⟩ := hy
    have hj := there_begun.1 hj
    split at hy
    · rename_i hfile
      obtain ⟨rfl, hy⟩ := hy
      have htab : y.tables = s.begun.tables := acct_tables hacct (by simp [handedLocked, ref, lck])
      have hiff : (∃ k, There s p path dp name k ∧ ((s.dinode k).type ≠ .file ∨ NoDescriptor s p)) ↔
          NoDescriptor s.begun p := by
        constructor
        · rintro ⟨k, hk, hno⟩
          obtain ⟨-, ⟨off, hoff⟩, -⟩ := hj
          obtain ⟨-, ⟨off', hoff'⟩, -⟩ := hk
          obtain ⟨rfl, -⟩ := Prod.mk.inj (Option.some.inj (hoff.symm.trans hoff'))
          exact hno.resolve_left fun hne => hne hfile.2
        · exact fun hno => ⟨j, hj, .inr hno⟩
      have hsome : s.lookup dp name ≠ none := by
        obtain ⟨-, ⟨off, hoff⟩, -⟩ := hj
        rw [hoff]
        exact Option.some_ne_none _
      rw [hiff]
      refine (openFile_same h.begun.tree hy htab h.closed omode).mono (fun r v hv => ?_) fun _ he => he
      rcases hv with ⟨hno, hr, hsame⟩ | ⟨hyes, hr⟩
      · exact .inl ⟨hno, hr, hsame.good, hsame.disk⟩
      · exact .inr ⟨hyes, hr, hsome⟩
    · rename_i hfile
      obtain ⟨rfl, hy⟩ := hy
      exact .inl ⟨⟨j, hj, .inl fun hf => hfile ⟨rfl, hf⟩⟩, rfl, hy.endOp _⟩
  refine settles_of_wp ((hwp.and (sysOpen_wp p (some path) (some omode) h.closed)).imp fun r v hv => ?_)
  obtain ⟨⟨hC, rfl, hsame⟩ | hr, hopened⟩ := hv
  · rcases hopened with ⟨-, hb, htab⟩ | ⟨fd, f, hfd, -⟩
    · exact .inl ⟨hC, rfl, hsame, hb.refs.trans (add_zero _), hb.locks, htab, hb.outstanding⟩
    · omega
  · exact .inr hr

/-! ## `link` -/

theorem relink_run (h : Good t) (hl : (t.inode i).locked = true) (ho : 1 ≤ t.outstanding) (k : BitVec 16) :
    wp (relink i k) (fun _ x => Good x ∧ x = (t.setIp i { t.ip i with nlink := (t.ip i).nlink + k }).setDinode i
      { t.ip i with nlink := (t.ip i).nlink + k }) (fun _ => False) t := by
  unfold relink
  rw [wp_bind, wp_modify]
  exact (relink_alone (d := { t.ip i with nlink := (t.ip i).nlink + k }) h hl hl rfl rfl rfl).mono
    (fun _ _ hx => ⟨hx.1.good, hx.2⟩) fun _ he => by omega

theorem SameDisk.bit (h : SameDisk s t) : t.bit = s.bit := by
  have := h.disk
  unfold State.disk at this
  simp only [Prod.mk.injEq] at this
  exact this.2.2

/-- **`link` has counted the new link**, and refers to the inode. -/
structure Raised (s : State) (i : Nat) (w : State) : Prop where
  tree   : Tree w
  same   : SameTree s w
  dinode : w.dinode = Function.update s.dinode i { s.dinode i with nlink := (s.dinode i).nlink + 1 }
  bit    : w.bit = s.bit
  acct   : w.acct = s.acct + ref i
  cached : w.cached = s.cached + s.entries (some i)

theorem Inside.raised (hs : Tree s) (hu : Inside s i u) (hua : u.acct = s.acct + (Files.ref i + lck i))
    (ho : 1 ≤ s.outstanding) :
    wp (relink i 1) (fun _ x => wp (iunlock i) (fun _ w => Raised s i w) (fun _ => False) x) (fun _ => False) u := by
  have hl := hu.held hs
  have hip : u.ip i = s.dinode i := by
    rw [(hu.same.good.ip hl).1, hu.same.dinode]
  have huo : u.outstanding = s.outstanding := (acct_outstanding hua).trans (add_zero _)
  refine ((relink_run hu.same.good hl (huo ▸ ho) 1).and ((relink_still i 1).wp u)).imp fun _ x hx => ?_
  obtain ⟨⟨hg, hx⟩, hxa⟩ := hx
  rw [hip] at hx
  generalize hd : ({ s.dinode i with nlink := (s.dinode i).nlink + 1 } : Dinode) = d at hx
  have hlx := acct_locked hxa rfl hl
  have hrun := iunlock_run hg hlx
  have hsame := iunlock_wpt hg i
  have hacct := (iunlock_moves i).of_run hrun
  have hcached : (x.setInode i { x.inode i with locked := false }).cached = x.cached := rfl
  unfold wpt at hsame
  rw [hrun] at hsame
  generalize x.setInode i { x.inode i with locked := false } = w at *
  have hwa : w.acct = s.acct + Files.ref i := by
    rw [hacct, hxa, hua]
    abel
  have hdinode : w.dinode = Function.update s.dinode i d := by
    rw [hsame.1.dinode, hx, setDinode_dinode]
    exact congrArg (Function.update · i d) hu.same.dinode
  have hfields : ∀ j, (w.dinode j).type = (s.dinode j).type ∧ (w.dinode j).size = (s.dinode j).size ∧
      (w.dinode j).addrs = (s.dinode j).addrs := fun j => by
    rw [hdinode, Function.update_apply]
    split
    · rename_i hj
      rw [← hd, hj]
      exact ⟨rfl, rfl, rfl⟩
    · exact ⟨rfl, rfl, rfl⟩
  have hdata : w.data = s.data := hsame.1.data.trans ((congrArg State.data hx).trans hu.same.data)
  have hst : SameTree s w := ⟨hdata, fun j => (hfields j).1, fun j => (hfields j).2.1, fun j => (hfields j).2.2⟩
  have hrefs : ∀ j, w.refs j = s.refs j + given (some i) j := fun j => congrFun (acct_refs hwa) j
  have hkept : NoOrphan w := fun j hty hn => by
    rw [hrefs]
    by_cases hj : j = i
    · have := hs.refs i
      rw [hj, given_self]
      omega
    · rw [hdinode, Function.update_of_ne hj] at hty hn
      have := hs.kept j hty hn
      rw [given_of_ne hj]
      omega
  refine Prog.wp_of_run hrun ⟨hst.tree hs hsame.1.good hkept (fun j => ?_) fun j => ?_, hst, hd ▸ hdinode, ?_, hwa, ?_⟩
  · have := hs.refs j
    have := given_nonneg (some i) j
    rw [hrefs]
    omega
  · rw [← Bool.not_eq_true, locked_iff, acct_locks hwa, hs.locks]
    exact zero_ne_one
  · exact hsame.1.bit.trans ((congrArg State.bit hx).trans hu.same.bit)
  · exact hcached.trans ((congrArg State.cached hx).trans hu.cached)

theorem Raised.unlinked (hw : Raised s i w) (hs : Tree s) (hty : (s.dinode i).type ≠ .free) (ho : 1 ≤ s.outstanding)
    (hz : Holds w none z) (hza : z.acct = w.acct) :
    wp (unlinked i) (fun r v => r = -1 ∧ SameDisk s v) (fun _ => False) z := by
  have hza' : z.acct = s.acct + Files.ref i := hza.trans hw.acct
  have hr : z.refs i = s.refs i + 1 := by
    rw [acct_refs hza', Pi.add_apply]
    simp [Files.ref]
  have hpos : 0 < z.refs i := by
    have := hs.refs i
    omega
  have htype : (z.dinode i).type ≠ .free := by
    rw [hz.same.dinode, hw.same.type]
    exact hty
  obtain ⟨y, hlock, hsame, hl, -⟩ := ilock_run hz.same.good hpos (hz.free hw.tree i) htype
  have hya : y.acct = s.acct + (Files.ref i + lck i) := by
    rw [(ilock_moves i).of_run hlock, hza']
    abel
  have hyo : y.outstanding = s.outstanding := (acct_outstanding hya).trans (add_zero _)
  have hwy := hz.same.trans hsame
  have hip : y.ip i = { s.dinode i with nlink := (s.dinode i).nlink + 1 } := by
    rw [(hsame.good.ip hl).1, hwy.dinode, hw.dinode, Function.update_self]
  have hback : ({ y.ip i with nlink := (y.ip i).nlink + -1 } : Dinode) = s.dinode i := by
    rw [hip]
    dsimp only
    rw [show (s.dinode i).nlink + 1 + -1 = (s.dinode i).nlink by bv_omega]
  unfold Files.unlinked
  rw [wp_bind]
  refine Prog.wp_of_run hlock ?_
  rw [wp_bind]
  refine ((relink_run hsame.good hl (hyo ▸ ho) (-1)).and ((relink_still i (-1)).wp y)).imp fun _ x hx => ?_
  obtain ⟨⟨hg, hx⟩, hxa⟩ := hx
  rw [hback] at hx
  have hsx : SameDisk s x := by
    refine ⟨hg, Prod.ext ?_ (Prod.ext ?_ ?_)⟩
    · change x.dinode = s.dinode
      rw [hx, setDinode_dinode]
      change Function.update y.dinode i (s.dinode i) = s.dinode
      rw [hwy.dinode, hw.dinode, Function.update_idem, Function.update_eq_self]
    · change x.data = s.data
      rw [hx]
      exact hwy.data.trans hw.same.data
    · change x.bit = s.bit
      rw [hx]
      exact hwy.bit.trans hw.bit
  have hkept : ¬ Frees x i := OneMore.kept hs.kept hsx fun j => by
    have hxr : x.refs = s.refs + (Files.ref i + lck i).1 := acct_refs (hxa.trans ((add_zero _).trans hya))
    rw [hxr, Pi.add_apply]
    simp [Files.ref, lck, given]
  obtain ⟨v, hput, hsv, -⟩ := iunlockput_run hg (acct_locked hxa rfl hl) hkept
  rw [wp_bind]
  exact Prog.wp_of_run hput ⟨rfl, (hsx.trans hsv).good.counts _ _, (hsx.trans hsv).disk⟩

theorem got_dropRef_cached (h : 0 ≤ u.refs j) : ((u.got j).dropRef j).cached = u.cached := by
  change 0 ≤ (u.inode j).ref at h
  unfold State.dropRef State.got
  split
  · unfold State.addRef
    rw [setInode_self]
    exact if_neg fun he => by dsimp only at he; omega
  · have hself : ((u.recycle j).inode j).ref = (u.inode j).ref + 1 := congrArg Inode.ref (setInode_self (s := u) _)
    rw [hself]
    exact if_pos (by omega)

theorem Inside.found (hs : Tree s) (hu : Inside s dp u) (hd : (s.dinode dp).type = .dir) {off : Nat}
    (hf : s.lookup dp name = some (j, off)) (inum : Nat) : wp (dirlink dp name inum)
      (fun r x => (j ≠ dp ∧ Fits s dp j) ∧ r = -1 ∧ Inside s dp x) (fun _ => ¬ (j ≠ dp ∧ Fits s dp j)) u := by
  have hgood := hu.same.good
  have hfu : u.lookup dp name = some (j, off) := by rw [hu.same.lookup, hf]
  have hrun := dirlink_found hgood (hu.held hs) (hu.same.isDir (hs.isDir hd)) hfu inum
  have hget := hu.gettable hs j
  by_cases hg : Gettable u j
  · rw [if_pos hg] at hrun
    by_cases hj : j = dp
    · rw [if_pos (hj ▸ hu.held hs)] at hrun
      exact Prog.wp_of_stop hrun fun hn => hn.1 hj
    · have hl := hu.free hs hj
      rw [if_neg (by simp [hl])] at hrun
      have hgot := got_same hgood hg
      have hsame := hgot.trans (dropRef_same hgot.good ((got_locked u j j).trans hl) (got_kept u j))
      have hacct := (dirlink_still dp name inum).of_run hrun
      refine Prog.wp_of_run hrun ⟨⟨hj, hget.1 hg⟩, rfl, hu.same.trans hsame, ?_, ?_, ?_⟩
      · rw [acct_refs hacct, hu.refs]
        exact add_zero _
      · rw [acct_locks hacct, hu.locks]
        exact add_zero _
      · exact (got_dropRef_cached (hu.refs_nonneg hs j)).trans hu.cached
  · rw [if_neg hg] at hrun
    exact Prog.wp_of_stop hrun fun hn => hg (hget.2 hn.2)

/-- The name is there, of another inode than the directory, for which the cache has room. -/
def Passes (s w : State) (dp : Nat) (name : Name) : Prop :=
  ∃ j, j ≠ dp ∧ (∃ off, s.lookup dp name = some (j, off)) ∧ Fits w dp j

theorem Raised.linkAt (hw : Raised s i w) (hs : Tree s) (hty : (s.dinode i).type ≠ .free) (ho : 1 ≤ s.outstanding)
    (hd : (s.dinode dp).type = .dir) (hfull : Full s dp) (hx : Holds w (some dp) x) (hxa : x.acct = w.acct + Files.ref dp) :
    wp (linkAt dp name i) (fun r v => Passes s w dp name ∧ r = -1 ∧ SameDisk s v) (fun _ => ¬ Passes s w dp name) x := by
  have hdw : (w.dinode dp).type = .dir := (hw.same.type dp).trans hd
  have hlookup : w.lookup dp name = s.lookup dp name := by rw [hw.same.lookup]
  obtain ⟨y, hlock, hy⟩ := hx.enter hw.tree (by rw [hdw]; decide)
  have hya : y.acct = w.acct + (Files.ref dp + lck dp) := by
    rw [(ilock_moves dp).of_run hlock, hxa]
    abel
  unfold Files.linkAt
  rw [wp_bind]
  refine Prog.wp_of_run hlock ?_
  rw [wp_bind]
  cases hf : s.lookup dp name with
  | none =>
    have hrun := (hy.alone hw.tree).dirlink (hw.tree.isDir hdw) (hlookup.trans hf) (hw.same.full hfull) i
    refine Prog.wp_of_stop hrun ?_
    rintro ⟨j, -, ⟨off, hoff⟩, -⟩
    rw [hf] at hoff
    cases hoff
  | some e =>
    obtain ⟨j, off⟩ := e
    have hpasses : Passes s w dp name ↔ j ≠ dp ∧ Fits w dp j := by
      constructor
      · rintro ⟨k, hk, ⟨off', hoff⟩, hfit⟩
        rw [hf] at hoff
        cases hoff
        exact ⟨hk, hfit⟩
      · exact fun hj => ⟨j, hj.1, ⟨off, hf⟩, hj.2⟩
    rw [hpasses]
    refine ((hy.found hw.tree hdw (hlookup.trans hf) i).and ((dirlink_still dp name i).wp y)).imp fun r u hu => ?_
    obtain ⟨⟨hC, rfl, hu⟩, hua⟩ := hu
    obtain ⟨z, hleave, hz⟩ := hu.leave hw.tree
    have hza : z.acct = w.acct := by
      rw [(iunlockput_moves dp).of_run hleave, hua, hya]
      abel
    rw [if_pos (by decide), wp_bind]
    exact Prog.wp_of_run hleave ((hw.unlinked hs hty ho hz hza).mono (fun _ _ hv => ⟨hC, hv⟩) fun _ he => he.elim)

theorem got_tree (s : State) (i : Nat) : SameTree s (s.got i) := by
  obtain ⟨hdinode, hdata, -⟩ := got_rest s i
  exact ⟨hdata, fun _ => by rw [hdinode], fun _ => by rw [hdinode], fun _ => by rw [hdinode]⟩

theorem got_acct (s : State) (i : Nat) : (s.got i).acct = s.acct + ref i := by
  unfold State.got
  split
  · exact addRef_acct
  · refine (setInode_acct s i _).trans ?_
    simp [ref]

theorem got_cached (s : State) (i : Nat) : (s.got i).cached = s.cached + s.entries (some i) := by
  unfold State.got
  change _ = s.cached + if 0 < (s.inode i).ref then 0 else 1
  split_ifs <;> rfl

theorem Raised.there (hw : Raised s i w) :
    There (s.got i) p path dp name j ↔ Enough w p path (components path).dropLast ∧
      (∃ off, s.lookup dp name = some (j, off)) ∧ Fits w dp j := by
  have hrefs : w.refs = (s.got i).refs := (acct_refs hw.acct).trans (acct_refs (got_acct s i)).symm
  have hcached := hw.cached.trans (got_cached s i).symm
  have hchild : w.child = (s.got i).child := by rw [hw.same.child, (got_tree s i).child]
  have hcwd : w.cwd = (s.got i).cwd := congrArg (fun a : Tables => a.2.2)
    ((acct_tables hw.acct rfl).trans (acct_tables (got_acct s i) rfl).symm)
  unfold There
  rw [← enough_congr hrefs hcached hchild hcwd, (got_tree s i).lookup, fits_congr hrefs hcached]

theorem Inside.linkTo (h : Calm s p) (ho : 1 ≤ s.outstanding) (hu : Inside s i u)
    (hua : u.acct = s.acct + (Files.ref i + lck i)) (hty : (s.dinode i).type ≠ .free)
    (hp : s.parent (s.origin p path) (components path) = some (dp, name)) (hfull : Full s dp) : wp (linkTo p i path)
      (fun r v => ((s.dinode i).type = .dir ∨ ∃ j, j ≠ dp ∧ There (s.got i) p path dp name j) ∧ r = -1 ∧ SameDisk s v)
      (fun _ => ¬ ((s.dinode i).type = .dir ∨ ∃ j, j ≠ dp ∧ There (s.got i) p path dp name j)) u := by
  have hs := h.tree
  have hip : u.ip i = s.dinode i := by
    rw [(hu.same.good.ip (hu.held hs)).1, hu.same.dinode]
  unfold Files.linkTo
  rw [wp_bind, wp_read, hip]
  by_cases hdir : (s.dinode i).type = .dir
  · obtain ⟨v, hleave, hv⟩ := hu.leave hs
    rw [if_pos hdir, wp_bind]
    exact Prog.wp_of_run hleave ⟨.inl hdir, rfl, hv.same.good.counts _ _, hv.same.disk⟩
  · rw [if_neg hdir, wp_bind]
    refine (hu.raised hs hua ho).mono (fun _ x hx => ?_) fun _ he => he.elim
    rw [wp_bind]
    refine hx.mono (fun _ w hw => ?_) fun _ he => he.elim
    have hcwd : w.cwd = s.cwd := congrArg (fun a : Tables => a.2.2) (acct_tables hw.acct rfl)
    have hrefs := acct_refs hw.acct
    have hparent : w.parent (w.origin p path) (components path) = some (dp, name) := by
      unfold State.origin
      rw [hw.same.parent, hcwd]
      exact hp
    have hpos : 0 < w.refs (w.cwd p) := by
      have := h.cwd
      have := given_nonneg (some i) (s.cwd p)
      rw [hcwd, hrefs]
      change 0 < s.refs (s.cwd p) + given (some i) (s.cwd p)
      omega
    have hfree : (w.dinode (w.cwd p)).type ≠ .free := by
      rw [hcwd, hw.same.type]
      exact h.cwdDir
    have hiff : ((s.dinode i).type = .dir ∨ ∃ j, j ≠ dp ∧ There (s.got i) p path dp name j) ↔
        Enough w p path (components path).dropLast ∧ Passes s w dp name := by
      simp only [hdir, false_or, hw.there]
      constructor
      · rintro ⟨j, hj, henough, hf, hfit⟩
        exact ⟨henough, j, hj, hf, hfit⟩
      · rintro ⟨henough, j, hj, hf, hfit⟩
        exact ⟨j, hj, henough, hf, hfit⟩
    rw [hiff, wp_bind]
    refine ((nameiparent_wp hw.tree hpos hfree path).and ((nameiparent_moves p path).wp w)).mono (fun r y hy => ?_)
      fun _ he hn => he.1 hn.1
    obtain ⟨⟨henough, rfl, hy⟩, hya⟩ := hy
    rw [hparent] at hy hya ⊢
    exact (hw.linkAt hs hty ho (parent_dir hp) hfull hy hya).mono (fun _ _ hv => ⟨⟨henough, hv.1⟩, hv.2⟩)
      fun _ he hn => he hn.2

/-- Where `link` of an old path fails in the full directory. -/
def LinkFails (s : State) (p : Nat) (old path : Path) (dp : Nat) (name : Name) : Prop :=
  Enough s p old (components old) ∧ ∀ i, s.resolve (s.origin p old) (components old) = some i →
    (s.dinode i).type = .dir ∨ ∃ j, j ≠ dp ∧ There (s.got i) p path dp name j

theorem begun_got (s : State) (i : Nat) : s.begun.got i = (s.got i).begun := by
  unfold State.got
  change (if 0 < (s.inode i).ref then _ else _) = _
  split_ifs <;> rfl

theorem linkFails_begun {old : Path} : LinkFails s.begun p old path dp name ↔ LinkFails s p old path dp name := by
  have henough := enough_congr (t := s.begun) (s := s) rfl rfl (begun_tree s).child rfl p old (components old)
  have hresolve : s.begun.resolve (s.begun.origin p old) = s.resolve (s.origin p old) := by
    unfold State.resolve
    rw [(begun_tree s).child]
    rfl
  unfold LinkFails
  rw [henough, hresolve]
  simp only [begun_got, there_begun]
  rfl

theorem Tree.resolve (hs : Tree s) : ∀ (l : List Name) (i : Nat), (s.dinode i).type ≠ .free → s.resolve i l = some j →
    (s.dinode j).type ≠ .free
  | [], _, hty, h     => by
    cases h
    exact hty
  | c :: l, i, _, h => by
    rw [resolve_cons, Option.bind_eq_some_iff] at h
    obtain ⟨k, hk, h⟩ := h
    exact hs.resolve l k (hs.child hk) h

/-- **`link` to a full directory fails where the old path fails, or the name is there.** -/
theorem sysLink_settles (h : Calm s p) (hp : s.parent (s.origin p path) (components path) = some (dp, name))
    (hfull : Full s dp) (old : Option Path) : Settles s dp name (sysLink p old (some path))
      (∀ o, old = some o → LinkFails s p o path dp name) := by
  cases old with
  | none =>
    have hwp : wp (sysLink p none (some path)) (fun r v => r = -1 ∧ Unchanged s v) (fun _ => False) s :=
      ⟨rfl, .of_acct (.refl h.tree.good) rfl⟩
    exact settles_of_wp (hwp.mono (fun _ _ hv => .inl ⟨fun _ ho => absurd ho (Option.some_ne_none _).symm, hv⟩)
      fun _ he => he.elim)
  | some old =>
    have hwp : wp (sysLink p (some old) (some path))
        (fun r v => LinkFails s.begun p old path dp name ∧ r = -1 ∧ SameDisk s.begun v)
        (fun _ => ¬ LinkFails s.begun p old path dp name) s := by
      have hs := h.begun.tree
      have ho : 1 ≤ s.begun.outstanding := Int.le_add_of_nonneg_left h.op
      unfold sysLink beginOp
      dsimp only
      rw [wp_bind, wp_modify, wp_bind]
      refine ((namei_wp hs h.begun.cwd h.begun.cwdDir old).and ((namei_moves p old).wp s.begun)).mono (fun r t ht => ?_)
        fun _ he hn => he.1 hn.1
      obtain ⟨⟨henough, hr, ht⟩, hta⟩ := ht
      cases r with
      | none =>
        refine ⟨⟨henough, fun i hi => ?_⟩, rfl, ht.same.good.counts _ _, ht.same.disk⟩
        rw [← hr] at hi
        cases hi
      | some i =>
        have hty := hs.resolve _ _ (hs.origin h.begun.cwdDir old) hr.symm
        obtain ⟨u, hlock, hu⟩ := ht.enter hs hty
        have hua : u.acct = s.begun.acct + (ref i + lck i) := by
          rw [(ilock_moves i).of_run hlock, hta]
          simp only [handed]
          abel
        have hiff : LinkFails s.begun p old path dp name ↔
            (s.begun.dinode i).type = .dir ∨ ∃ j, j ≠ dp ∧ There (s.begun.got i) p path dp name j := by
          refine ⟨fun hn => hn.2 i hr.symm, fun hn => ⟨henough, fun k hk => ?_⟩⟩
          rw [← hr] at hk
          cases hk
          exact hn
        rw [hiff]
        dsimp only
        rw [wp_bind]
        exact Prog.wp_of_run hlock (hu.linkTo h.begun ho hua hty (begun_parent hp) ((begun_tree s).full hfull))
    rw [linkFails_begun] at hwp
    refine settles_of_wp ((hwp.and ((sysLink_still p (some old) (some path)).wp s)).mono (fun r v hv => ?_)
      fun _ he hn => he (hn old rfl))
    obtain ⟨⟨hC, hr, hsame⟩, hacct⟩ := hv
    refine .inl ⟨fun o ho => ?_, hr, .of_acct ⟨hsame.good, hsame.disk⟩ (hacct.trans (add_zero _))⟩
    cases ho
    exact hC

/-! ## All calls -/

/-- **What the calls do in a full directory**: they are refused, and leave everything as it was, exactly where they come to a
name that is there, or fail before; a name that is not there stops the kernel. -/
theorem full_directory (h : Calm s p) (hp : s.parent (s.origin p path) (components path) = some (dp, name))
    (hfull : Full s dp) :
    (∀ old, Settles s dp name (sysLink p old (some path)) (∀ o, old = some o → LinkFails s p o path dp name)) ∧
    Settles s dp name (sysMkdir p (some path)) (∃ j, There s p path dp name j) ∧
    (∀ major minor, Settles s dp name (sysMknod p (some path) major minor)
      (major = none ∨ minor = none ∨ ∃ j, There s p path dp name j)) ∧
    ∀ omode : BitVec 32, omode.getLsbD 9 = true → Settles s dp name (sysOpen p (some path) (some omode))
      (∃ j, There s p path dp name j ∧ ((s.dinode j).type ≠ .file ∨ NoDescriptor s p)) :=
  ⟨sysLink_settles h hp hfull, sysMkdir_settles h hp hfull, sysMknod_settles h hp hfull, fun _ => sysOpen_settles h hp hfull⟩

/-! ### A full root directory -/

theorem SameDisk.dir (h : SameDisk s t) (dp : Nat) : t.dir dp = s.dir dp := by
  unfold State.dir
  simp only [h.dinode, h.direntAt]

theorem ofList_full {l : List (Name × Nat)} (hd : IsDir s dp) (hdir : s.dir dp = .ofList l)
    (hl : 16 * l.length = maxFile * bsize) : Full s dp := by
  have hsize : (s.dinode dp).size.toNat / 16 = l.length := congrArg Slots.size hdir
  have hw := hd.whole
  refine ⟨by omega, fun off hoff => ?_⟩
  rw [hd.offsets, List.mem_map] at hoff
  obtain ⟨k, hk, rfl⟩ := hoff
  rw [List.mem_range] at hk
  have hslot := dir_slot hk
  rw [Ne, ← used_eq_none, ← hslot, hdir]
  rw [hdir] at hk
  exact fun hnone => absurd hk (Nat.not_lt.2 (List.getElem?_eq_none_iff.1 hnone))

def stem (n : Nat) : Name := [97, BitVec.ofNat 8 (n / 255 + 1), BitVec.ofNat 8 (n % 255 + 1)]

/-- `.`, `..` and `n` names of inode 2. -/
def crowd (n : Nat) : List (Name × Nat) := (dot, rootIno) :: (dotDot, rootIno) :: (List.range n).map fun k => (stem k, 2)

theorem ofNat_ne_zero {k : Nat} (h : k < 255) : BitVec.ofNat 8 (k + 1) ≠ 0#8 := by
  intro he
  have := congrArg BitVec.toNat he
  rw [BitVec.toNat_ofNat, BitVec.toNat_ofNat] at this
  omega

theorem cname_stem {k : Nat} (h : k < 65025) : cname (stem k) = stem k := by
  have h1 := ofNat_ne_zero (k := k / 255) (by omega)
  have h2 := ofNat_ne_zero (k := k % 255) (by omega)
  simp [cname, stem, dirsiz, h1, h2]

theorem stem_inj {j k : Nat} (hj : j < 65025) (hk : k < 65025) (h : stem j = stem k) : j = k := by
  unfold stem at h
  simp only [List.cons.injEq, and_true, true_and] at h
  have h1 := congrArg BitVec.toNat h.1
  have h2 := congrArg BitVec.toNat h.2
  simp only [BitVec.toNat_ofNat] at h1 h2
  omega

theorem crowd_names {n : Nat} (hn : n ≤ 65025) :
    ((crowd n).map entryOf).map Prod.fst = dot :: dotDot :: (List.range n).map stem := by
  unfold crowd
  simp only [List.map_cons, List.map_map]
  refine congrArg₂ List.cons (by decide) (congrArg₂ List.cons (by decide) (List.map_congr_left fun k hk => ?_))
  have := List.mem_range.1 hk
  exact cname_stem (by omega)

theorem crowd_nodup {n : Nat} (hn : n ≤ 65025) : (((crowd n).map entryOf).map Prod.fst).Nodup := by
  have hstems : ((List.range n).map stem).Nodup := by
    refine List.Nodup.map_on (fun j hj k hk => ?_) List.nodup_range
    rw [List.mem_range] at hj hk
    exact stem_inj (by omega) (by omega)
  rw [crowd_names hn, List.nodup_cons, List.nodup_cons]
  refine ⟨?_, ?_, hstems⟩
  · simp [stem, dot, dotDot]
  · simp [stem, dotDot]

/-- A file with `n` links, next to the root directory. -/
def twoInodes (n : Nat) : State :=
  bareDisk.setDinode 2 { Dinode.zero with type := .file, nlink := BitVec.ofNat 16 n }

def seeded (n : Nat) : State :=
  { (twoInodes n).setInode rootIno ⟨1, true, true, bareDisk.dinode rootIno⟩ with cached := 1, outstanding := 1 }

theorem twoInodes_dinode (n i : Nat) : (twoInodes n).dinode i =
    if i = 2 then { Dinode.zero with type := .file, nlink := BitVec.ofNat 16 n } else bareDisk.dinode i := rfl

theorem twoInodes_tree {n : Nat} (h1 : 1 ≤ n) (h2 : n ≤ 65535) : Tree (twoInodes n) := by
  refine empty_tree rfl (fun i k => ?_) (fun i => ?_) (fun _ => rfl) (fun _ => rfl) (show FileType.dir ≠ .free by decide)
    (fun i => ?_) bareDisk_tree.refs
  · rw [twoInodes_dinode]
    split
    · rfl
    · exact bareDisk_addrs i k
  · rw [twoInodes_dinode]
    split
    · rfl
    · exact bareDisk_size i
  · rw [twoInodes_dinode]
    split
    · intro _ hz
      have hz := congrArg BitVec.toNat hz
      change n % 2 ^ 16 = 0 at hz
      omega
    · exact bareDisk_nlink i

theorem seeded_dir (n : Nat) : (seeded n).dir rootIno = .ofList [] := by
  have hsize : ((seeded n).dinode rootIno).size.toNat = 0 := rfl
  refine Slots.ext ?_ (funext fun k => ?_)
  · show ((seeded n).dinode rootIno).size.toNat / 16 = 0
    rw [hsize]
  · refine ((seeded n).dir rootIno).free k ?_
    show ((seeded n).dinode rootIno).size.toNat / 16 ≤ k
    rw [hsize]
    exact Nat.zero_le k

theorem seeded_directory {n : Nat} (h1 : 1 ≤ n) (h2 : n ≤ 65535) : Directory (seeded n) rootIno where
  call :=
    { good := Good.counts ((twoInodes_tree h1 h2).good.setInode (n := ⟨1, true, true, bareDisk.dinode rootIno⟩)
        (fun _ _ => ⟨rfl, fun h => FileType.noConfusion h⟩) fun _ => ⟨by decide, rfl⟩) 1 1
      inums := fun j hj => by
        change ((twoInodes n).dinode j).type = .free
        rw [twoInodes_dinode, if_neg (by rintro rfl; exact absurd hj (by decide))]
        exact rootLocked_call.inums j hj
      held := congrArg Inode.locked (setInode_self (s := twoInodes n) _)
      file := fun h => FileType.noConfusion h
      op := Int.le_refl 1 }
  isDir := ⟨rfl, rfl⟩
  distinct := seeded_dir n ▸ Slots.distinct_ofList List.nodup_nil

/-- The root directory when `n` names of the file have been linked, and it has been unlocked. -/
@[irreducible] def packed (n : Nat) : State :=
  ((do
    linkAll rootIno (crowd n)
    iunlock rootIno
    endOp : F Unit) (seeded n)).st

theorem crowd_length (n : Nat) : ((crowd n).map entryOf).length = n + 2 := by simp [crowd]

theorem crowd_inums {n : Nat} {e : Name × Nat} (h : e ∈ (crowd n).map entryOf) : e.2 = rootIno ∨ e.2 = 2 := by
  unfold crowd at h
  simp only [List.map_cons, List.map_map, List.mem_cons, List.mem_map] at h
  rcases h with rfl | rfl | ⟨k, -, rfl⟩
  · exact .inl rfl
  · exact .inl rfl
  · exact .inr rfl

/-- **The names are all there**, and nothing else has changed. -/
structure Packed (n : Nat) (q : State) : Prop where
  good   : Good q
  isDir  : IsDir q rootIno
  dir    : q.dir rootIno = .ofList ((crowd n).map entryOf)
  dinode : ∀ i, i ≠ rootIno → q.dinode i = (twoInodes n).dinode i
  refs   : q.refs = bareDisk.refs
  free   : ∀ i, (q.inode i).locked = false
  cached : q.cached = 1
  op     : q.outstanding = 0
  file   : q.file = bareDisk.file
  cwd    : q.cwd = bareDisk.cwd

theorem Packed.of_rest {n : Nat} (hd : Directory t rootIno) (hdir : t.dir rootIno = .ofList ((crowd n).map entryOf))
    (hrest : t.rest rootIno = (seeded n).rest rootIno) :
    Packed n { t.setInode rootIno { t.inode rootIno with locked := false } with outstanding := t.outstanding - 1 } := by
  have hsame := iunlock_wpt hd.call.good rootIno
  unfold wpt at hsame
  rw [iunlock_run hd.call.good hd.call.held] at hsame
  have hsame : SameDisk t
      { t.setInode rootIno { t.inode rootIno with locked := false } with outstanding := t.outstanding - 1 } :=
    ⟨hsame.1.good.counts _ _, hsame.1.disk⟩
  have hother : ∀ i, i ≠ rootIno → (t.setInode rootIno { t.inode rootIno with locked := false }).inode i =
      bareDisk.inode i :=
    fun i hi => (setInode_of_ne hi _).trans ((rest_inode hrest hi).trans (setInode_of_ne hi _))
  have hself : (t.setInode rootIno { t.inode rootIno with locked := false }).inode rootIno =
      { t.inode rootIno with locked := false } := setInode_self _
  have hcached : t.cached = 1 := congrArg State.cached hrest
  have hout : t.outstanding = 1 := congrArg State.outstanding hrest
  have hfile := congrArg State.file hrest
  have hcwd := congrArg State.cwd hrest
  refine ⟨hsame.good, hsame.isDir hd.isDir, (hsame.dir rootIno).trans hdir, fun i hi => ?_, funext fun i => ?_, fun i => ?_,
    hcached, ?_, hfile, hcwd⟩
  · exact (congrFun hsame.dinode i).trans (rest_dinode (s := seeded n) hrest hi)
  · by_cases hi : i = rootIno
    · subst hi
      exact (congrArg Inode.ref hself).trans (rest_self hrest).1
    · exact congrArg Inode.ref (hother i hi)
  · by_cases hi : i = rootIno
    · subst hi
      exact congrArg Inode.locked hself
    · exact congrArg Inode.locked (hother i hi)
  · show t.outstanding - 1 = 0
    rw [hout, sub_self]

theorem packed_spec {n : Nat} (h1 : 1 ≤ n) (h2 : n ≤ 4478) : Packed n (packed n) := by
  have hlim : maxFile * bsize = 71680 := rfl
  have hlen := crowd_length n
  rw [List.length_map] at hlen
  have hfill := (seeded_directory h1 (by omega)).fill (crowd n) [] _ (seeded_dir n) (crowd_nodup (by omega)) (fun e he => ?_)
    (by rw [List.length_nil]; omega)
  · rcases hrun : linkAll rootIno (crowd n) (seeded n) with ⟨r, t, l⟩
    unfold wp at hfill
    rw [hrun] at hfill
    cases r with
    | error e => exact hfill.elim
    | ok r =>
      obtain ⟨hdir, htable, hrest⟩ := hfill
      unfold packed
      rw [Prog.bind_run_ok hrun, Prog.bind_run_nil (iunlock_run hdir.call.good hdir.call.held)]
      exact .of_rest hdir htable hrest
  · rcases crowd_inums (List.mem_map_of_mem (f := entryOf) he) with h | h <;> simp only [entryOf] at h <;> rw [h] <;> decide

theorem Packed.lookup {n : Nat} {q : State} (h : Packed n q) {off : Nat} (hf : q.lookup rootIno name = some (j, off)) :
    j = rootIno ∨ j = 2 := by
  rw [lookup_eq h.isDir, h.dir, Option.map_eq_some_iff] at hf
  obtain ⟨⟨_, k⟩, hk, he⟩ := hf
  cases he
  exact crowd_inums (Slots.slot_ofList_iff.1 ⟨k, Slots.slot_of_find hk⟩)

theorem Packed.calm {n : Nat} {q : State} (h : Packed n q) (h1 : 1 ≤ n) (h2 : n ≤ 65535) : Calm q 0 := by
  have htree := twoInodes_tree h1 h2
  have hroot : (q.dinode rootIno).type ≠ .free := by
    rw [h.isDir.type]
    decide
  have hdir : ∀ i, (q.dinode i).type = .dir → i = rootIno := fun i hi => by
    by_contra hne
    rw [h.dinode i hne, twoInodes_dinode] at hi
    split at hi
    · cases hi
    · rw [show bareDisk.dinode i = Dinode.zero from if_neg hne] at hi
      cases hi
  refine ⟨⟨h.good, fun i hi => ?_, fun i hi name j off hf => ?_, hroot, fun i hty hn => ?_, fun i => ?_, h.free⟩,
    ?_, ?_, ?_, ?_⟩
  · rw [hdir i hi]
    exact h.isDir.whole
  · rw [hdir i hi] at hf
    rcases h.lookup hf with rfl | rfl
    · exact hroot
    · rw [h.dinode 2 (by decide), twoInodes_dinode]
      exact fun h => FileType.noConfusion h
  · by_cases hi : i = rootIno
    · rw [h.refs, hi]
      decide
    · rw [h.dinode i hi] at hty hn
      rw [h.refs]
      exact htree.kept i hty hn
  · rw [h.refs]
    exact bareDisk_tree.refs i
  · rw [h.refs, h.cwd]
    decide
  · rw [h.cwd]
    exact hroot
  · rw [h.op]
  · intro f _
    rw [h.file]
    rfl

theorem Packed.full {q : State} (h : Packed 4478 q) : Full q rootIno := by
  refine ofList_full h.isDir h.dir ?_
  rw [crowd_length]
  rfl

/-- `/x`. -/
def newPath : Path := [slash, 120]

theorem Packed.parent {n : Nat} {q : State} (h : Packed n q) :
    q.parent (q.origin 0 newPath) (components newPath) = some (rootIno, [120]) := by
  have hc : components newPath = [[120]] := by decide
  have horigin : q.origin 0 newPath = rootIno := rfl
  rw [hc, horigin, parent_singleton, if_pos h.isDir.type]

theorem Packed.absent {n : Nat} {q : State} (h : Packed n q) (hn : n ≤ 65025) : q.lookup rootIno [120] = none := by
  rw [lookup_eq_none h.isDir, h.dir]
  refine Slots.find_ofList_eq_none.2 ?_
  rw [crowd_names hn]
  simp [cname, dirsiz, dot, dotDot, stem]

theorem Packed.not_scarce {n : Nat} {q : State} (h : Packed n q) : ¬ Scarce q.begun 0 newPath rootIno := by
  have href : (q.inode rootIno).ref = 1 := congrFun h.refs rootIno
  have hc : (components newPath).dropLast = [] := by decide
  rintro (henough | hfree | hcached | hout)
  · refine henough ⟨fun _ => .inl ?_, ?_⟩
    · show 0 < (q.inode rootIno).ref
      rw [href]
      decide
    · rw [hc]
      trivial
  · have hthree := List.find?_eq_none.1 hfree 3 (by decide)
    have htype : (q.dinode 3).type = .free := by
      rw [h.dinode 3 (by decide), twoInodes_dinode, if_neg (by decide)]
      rfl
    simp [State.begun, htype] at hthree
  · change ninode ≤ q.cached + (if 0 < (q.inode rootIno).ref then 0 else 1) at hcached
    rw [h.cached, href] at hcached
    exact absurd hcached (by decide)
  · change q.outstanding + 1 < 1 at hout
    rw [h.op] at hout
    exact absurd hout (by decide)

theorem Packed.open {q : State} (h : Packed 4478 q) :
    (sysOpen 0 (some newPath) (some 0x200#32) q).res = .error (.panic "dirlink") := by
  have hcalm := h.calm (by decide) (by decide)
  have habsent := h.absent (by decide)
  have hwp : wp (sysOpen 0 (some newPath) (some 0x200#32)) (fun _ _ => False) (fun e => e = .panic "dirlink") q := by
    have hopen : openInode 0 newPath 0x200#32 = create 0 newPath .file 0 0 := rfl
    unfold sysOpen beginOp
    dsimp only
    rw [hopen, wp_bind, wp_modify, wp_bind]
    refine (create_wp hcalm.begun (begun_parent h.parent) ((begun_tree q).full h.full) (by decide) 0 0).mono
      (fun r x hx => ?_)
      fun e he => (he.2 ?_ (by decide)).resolve_right h.not_scarce
    · obtain ⟨j, hj, -⟩ := hx
      exact (there_absent habsent ⟨j, there_begun.1 hj⟩).elim
    · rw [(begun_tree q).lookup]
      exact habsent
  cases hres : (sysOpen 0 (some newPath) (some 0x200#32) q).res with
  | ok r => exact (hwp.ok hres).elim
  | error e => rw [hwp.error hres]

theorem packed_packed : Packed 4478 (packed 4478) := packed_spec (by decide) (by decide)

/-- **`open` with `O_CREATE` panics** in a full directory: a file system whose root directory has 4480 entries. -/
theorem packed_panics : Calm (packed 4478) 0 ∧
    (packed 4478).parent ((packed 4478).origin 0 newPath) (components newPath) = some (rootIno, [120]) ∧
    Full (packed 4478) rootIno ∧
    (sysOpen 0 (some newPath) (some 0x200#32) (packed 4478)).res = .error (.panic "dirlink") ∧
    ¬ Refused (packed 4478) (sysOpen 0 (some newPath) (some 0x200#32)) := by
  have hopen := packed_packed.open
  refine ⟨packed_packed.calm (by decide) (by decide), packed_packed.parent, packed_packed.full, hopen, ?_⟩
  rintro ⟨t, l, hrun, -⟩
  rw [hrun] at hopen
  cases hopen

theorem packed_directory :
    (∀ old, Settles (packed 4478) rootIno [120] (sysLink 0 old (some newPath))
      (∀ o, old = some o → LinkFails (packed 4478) 0 o newPath rootIno [120])) ∧
    Settles (packed 4478) rootIno [120] (sysMkdir 0 (some newPath)) (∃ j, There (packed 4478) 0 newPath rootIno [120] j) ∧
    (∀ major minor, Settles (packed 4478) rootIno [120] (sysMknod 0 (some newPath) major minor)
      (major = none ∨ minor = none ∨ ∃ j, There (packed 4478) 0 newPath rootIno [120] j)) ∧
    ∀ omode : BitVec 32, omode.getLsbD 9 = true → Settles (packed 4478) rootIno [120] (sysOpen 0 (some newPath) (some omode))
      (∃ j, There (packed 4478) 0 newPath rootIno [120] j ∧
        (((packed 4478).dinode j).type ≠ .file ∨ NoDescriptor (packed 4478) 0)) :=
  full_directory (packed_packed.calm (by decide) (by decide)) packed_packed.parent packed_packed.full

end Files
end Xv6
