import Cplant.Yod.Position

/-!
# Handles that nodes have open

Nodes that open the same file get the same handle, and its reference count is to be the number of
opens that have not been closed. The view of the list that matters here has the address, the name
and the count of each handle.
-/
namespace Cplant.Yod
open List Option FileHandle Handles Bool
open Keyed
variable {ν : Type} {n : ℤ} {o : OpenOutcome} {name : ν}

def FileName.isPath : FileName ν → Bool
  | .path _ => true
  | _ => false

structure Entry (ν : Type) where
  addr : ℕ
  fname : FileName ν
  refCount : ℤ

structure Counted (held : List ℕ) (es : List (Entry ν)) : Prop where
  addrs : (es.map Entry.addr).Nodup
  names : (es.map Entry.fname).Nodup
  counts : ∀ e ∈ es, e.fname.isPath = true →
    0 < e.refCount ∧ e.refCount < 2 ^ 31 ∧ e.refCount = held.count e.addr
  held : ∀ a ∈ held, ∃ e ∈ es, e.addr = a ∧ e.fname.isPath = true

namespace Counted
variable {held : List ℕ} {es : List (Entry ν)} {e : Entry ν} {a : ℕ}

section
variable (h : Counted held es)
include h

theorem not_mem_held (ha : ∀ e ∈ es, e.addr ≠ a) : a ∉ held := by
  intro hmem
  obtain ⟨e, he, hea, -⟩ := h.held a hmem
  exact ha e he hea

theorem add (ha : ∀ e ∈ es, e.addr ≠ a) (hname : ∀ e ∈ es, e.fname ≠ .path name) :
    Counted (a :: held) (es ++ [⟨a, .path name, 1⟩]) where
  addrs := by
    rw [map_append, nodup_append]
    refine ⟨h.addrs, nodup_singleton _, ?_⟩
    intro b hb c hc
    obtain ⟨e, he, rfl⟩ := mem_map.mp hb
    rw [mem_singleton.mp hc]
    exact ha e he
  names := by
    rw [map_append, nodup_append]
    refine ⟨h.names, nodup_singleton _, ?_⟩
    intro b hb c hc
    obtain ⟨e, he, rfl⟩ := mem_map.mp hb
    rw [mem_singleton.mp hc]
    exact hname e he
  counts := by
    intro e he hp
    rcases mem_append.mp he with he | he
    · rw [count_cons_of_ne (ha e he).symm]
      exact h.counts e he hp
    · cases mem_singleton.mp he
      rw [count_cons_self, count_eq_zero.mpr (h.not_mem_held ha)]
      exact (by decide : (0 : ℤ) < 1 ∧ (1 : ℤ) < 2 ^ 31 ∧ (1 : ℤ) = ((0 + 1 : ℕ) : ℤ))
  held := by
    intro b hb
    rcases mem_cons.mp hb with rfl | hb
    · exact ⟨_, mem_append_right _ (mem_singleton.mpr rfl), rfl, rfl⟩
    · obtain ⟨e, he, hea, hp⟩ := h.held b hb
      exact ⟨e, mem_append_left _ he, hea, hp⟩

theorem recount (he : e ∈ es) {held' : List ℕ} (hn : 0 < n ∧ n < 2 ^ 31 ∧ n = held'.count e.addr)
    (hcount : ∀ a, a ≠ e.addr → held'.count a = held.count a)
    (hheld : ∀ a ∈ held', a ∈ held ∨ a = e.addr) (hp : e.fname.isPath = true) :
    Counted held' (put Entry.addr { e with refCount := n } es) where
  addrs := by
    rw [map_key_put]
    exact h.addrs
  names := by
    rw [map_put (h := { e with refCount := n }) h.addrs he rfl rfl]
    exact h.names
  counts := by
    intro e' he' hp'
    rcases mem_put he' with rfl | ⟨he', hne⟩
    · exact hn
    · rw [hcount e'.addr hne]
      exact h.counts e' he' hp'
  held := by
    intro a ha
    by_cases hae : a = e.addr
    · exact ⟨_, put_mem he rfl, hae.symm, hp⟩
    · rcases hheld a ha with ha | ha
      · obtain ⟨e', he', hea, hp'⟩ := h.held a ha
        exact ⟨e', mem_put_of_ne he' (hea ▸ hae), hea, hp'⟩
      · exact absurd ha hae

section
variable (he : e ∈ es) (hp : e.fname.isPath = true)
include he hp

theorem bump (hlt : e.refCount < 2 ^ 31 - 1) :
    Counted (e.addr :: held) (put Entry.addr { e with refCount := e.refCount + 1 } es) := by
  obtain ⟨hpos, -, hcount⟩ := h.counts e he hp
  refine h.recount he ⟨by omega, by omega, ?_⟩ (fun a ha => ?_) (fun a ha => ?_) hp
  · rw [count_cons_self]
    omega
  · exact count_cons_of_ne ha.symm
  · exact (mem_cons.mp ha).symm

theorem drop (hne : e.refCount ≠ 1) :
    Counted (held.erase e.addr) (put Entry.addr { e with refCount := e.refCount - 1 } es) := by
  obtain ⟨hpos, hlt, hcount⟩ := h.counts e he hp
  refine h.recount he ⟨by omega, by omega, ?_⟩ (fun a ha => ?_) (fun a ha => ?_) hp
  · rw [count_erase_self]
    omega
  · exact count_erase_of_ne ha
  · exact .inl (mem_of_mem_erase ha)

theorem remove (hone : e.refCount = 1) :
    Counted (held.erase e.addr) (remove Entry.addr e.addr es) where
  addrs := (remove_sublist.map _).nodup h.addrs
  names := (remove_sublist.map _).nodup h.names
  counts := by
    intro e' he' hp'
    obtain ⟨he', hne⟩ := mem_remove.mp he'
    rw [count_erase_of_ne hne]
    exact h.counts e' he' hp'
  held := by
    intro a ha
    have hzero : (held.erase e.addr).count e.addr = 0 := by
      rw [count_erase_self]
      have := (h.counts e he hp).2.2
      omega
    have hne : a ≠ e.addr := by
      rintro rfl
      exact count_eq_zero.mp hzero ha
    obtain ⟨e', he', hea, hp'⟩ := h.held a (mem_of_mem_erase ha)
    exact ⟨e', mem_remove.mpr ⟨he', hea ▸ hne⟩, hea, hp'⟩

end
end
end Counted

theorem toInt32_eq (hpos : 0 < n) (hlt : n < 2 ^ 31) : toInt32 n = n := by
  unfold toInt32
  rw [Int.bmod_def]
  omega

def FileHandle.entry (fh : FileHandle ν) : Entry ν := ⟨fh.addr, fh.fname, fh.refCount⟩

theorem FileHandle.Same.entry_eq {fh fh' : FileHandle ν} (h : fh.Same fh') :
    fh'.entry = fh.entry := by
  rw [entry, h.addr, h.fname, h.refCount]
  rfl

namespace Handles
variable {l : Handles ν} {fh fh' out : FileHandle ν}

def entries (l : Handles ν) : List (Entry ν) := l.map FileHandle.entry

def openCount (l : Handles ν) : ℕ := l.countP fun fh => fh.fd.isSome

theorem addrs_entries (l : Handles ν) : l.entries.map Entry.addr = l.map addr :=
  map_map

theorem mem_entries (h : fh ∈ l) : fh.entry ∈ l.entries := mem_map_of_mem h

theorem entries_put (l : Handles ν) (fh : FileHandle ν) :
    (l.put fh).entries = Keyed.put Entry.addr fh.entry l.entries := map_put_comm fun _ => rfl

theorem entries_destroy (l : Handles ν) (addr : ℕ) :
    (l.destroyFileHandle addr).entries = remove Entry.addr addr l.entries :=
  map_remove_comm fun _ => rfl

structure Cached.Kept (l : Handles ν) (fh : FileHandle ν) (c : Cached ν) : Prop where
  entries : c.handles.entries = l.entries
  openCount : c.handles.openCount ≤ l.openCount
  mem : c.fh ∈ c.handles
  same : fh.Same c.fh
  isSome : c.out ≠ none → c.fh.fd.isSome

section
variable (hn : (l.map FileHandle.addr).Nodup)
include hn

theorem entries_put_same (hfh : fh ∈ l) (hsame : fh.Same fh') :
    (l.put fh').entries = l.entries := by
  rw [entries_put, hsame.entry_eq]
  apply put_eq_self
  · rwa [addrs_entries]
  · exact mem_entries hfh

theorem openCount_put (hfh : fh ∈ l) (haddr : fh'.addr = fh.addr) :
    (l.put fh').openCount + fh.fd.isSome.toNat = l.openCount + fh'.fd.isSome.toNat :=
  countP_put hn hfh haddr.symm

theorem openCount_put_le (hfh : fh ∈ l) (hsome : fh.fd.isSome) (haddr : fh'.addr = fh.addr) :
    (l.put fh').openCount ≤ l.openCount := by
  have hopen := openCount_put hn hfh haddr
  have := toNat_le fh'.fd.isSome
  rw [hsome, toNat_true] at hopen
  omega

theorem openCount_put_cacheOut (hf : l.findOpenFileHandle = some out) :
    (l.put out.cacheOut).openCount + 1 = l.openCount := by
  obtain ⟨hmem, hsome⟩ := findOpen_spec hf
  have h := openCount_put hn hmem out.same_cacheOut.addr
  rw [hsome] at h
  exact h

theorem nodup_put (fh : FileHandle ν) : ((l.put fh).map addr).Nodup := by
  rw [put, map_key_put]
  exact hn

theorem cacheFileHandle_kept (hfh : fh ∈ l) (o : CacheOutcome) :
    (l.cacheFileHandle fh o).Kept l fh := by
  unfold cacheFileHandle
  cases hfd : fh.fd with
  | some d =>
    have hsome : fh.fd.isSome := by
      rw [hfd]
      rfl
    exact ⟨rfl, Nat.le_refl _, hfh, ⟨rfl, rfl, rfl, rfl⟩, fun _ => hsome⟩
  | none =>
    simp only [isNone_none, if_true]
    split
    · exact ⟨rfl, Nat.le_refl _, hfh, ⟨rfl, rfl, rfl, rfl⟩, fun hno => absurd rfl hno⟩
    rename_i out hf
    obtain ⟨hout, hsome⟩ := findOpen_spec hf
    have hne : fh.addr ≠ out.addr := by
      intro heq
      rw [← inj_on_of_nodup_map hn hfh hout heq, hfd] at hsome
      cases hsome
    have hn1 := nodup_put hn out.cacheOut
    have hfh1 : fh ∈ l.put out.cacheOut := mem_put_of_ne hfh hne
    have hsame := fh.same_cacheIn o.inward
    have hentries := (entries_put_same hn1 hfh1 hsame).trans
      (entries_put_same hn hout out.same_cacheOut)
    have hopen := openCount_put hn1 hfh1 hsame.addr
    have hopen1 := openCount_put_cacheOut hn hf
    have hmem : fh.cacheIn o.inward ∈ (l.put out.cacheOut).put (fh.cacheIn o.inward) :=
      put_mem hfh1 hsame.addr.symm
    cases hin : o.inward with
    | some num =>
      rw [hin] at hentries hopen hmem
      refine ⟨hentries, ?_, hmem, fh.same_cacheIn (some num), fun _ => ?_⟩
      · have := toNat_le (fh.cacheIn (some num)).fd.isSome
        simp only [isSome_some, if_true] at hopen ⊢
        omega
      · simp only [isSome_some, if_true, cacheIn, map_some, lseek]
        split_ifs <;> rfl
    | none =>
      rw [hin] at hentries hopen hmem
      have hn2 := nodup_put hn1 (fh.cacheIn none)
      have hout2 : out.cacheOut ∈ (l.put out.cacheOut).put (fh.cacheIn none) :=
        mem_put_of_ne (put_mem hout rfl) hne.symm
      have hback := out.cacheOut.same_cacheIn o.back
      have hopen2 := openCount_put hn2 hout2 hback.addr
      refine ⟨(entries_put_same hn2 hout2 hback).trans hentries, ?_, mem_put_of_ne hmem hne,
        fh.same_cacheIn none, fun hno => absurd rfl hno⟩
      have := toNat_le (out.cacheOut.cacheIn o.back).fd.isSome
      have hclosed' : (fh.cacheIn none).fd.isSome.toNat = 0 := rfl
      simp only [isSome_none, false_eq_true, if_false] at hopen ⊢
      omega

structure Roomy (cfg : Config) (l : Handles ν) (c : Handles ν × Option (FileHandle ν)) : Prop where
  entries : c.1.entries = l.entries
  room : c.1.openCount < cfg.maxOpenFiles
  out : ∀ o, c.2 = some o → o ∈ c.1

theorem cacheOutAny_roomy {cfg : Config} (hle : l.openCount ≤ cfg.maxOpenFiles) :
    Roomy cfg l (l.cacheOutAny cfg) := by
  have hstdio := cfg.stdio_le
  unfold cacheOutAny
  split_ifs with hlen
  · split
    next out hf =>
      obtain ⟨hmem, -⟩ := findOpen_spec hf
      have hopen := openCount_put_cacheOut hn hf
      have hroom : (l.put out.cacheOut).openCount < cfg.maxOpenFiles := by omega
      refine ⟨entries_put_same hn hmem out.same_cacheOut, hroom, fun _ heq => ?_⟩
      cases heq
      exact put_mem hmem rfl
    next hf =>
      have hzero : l.openCount = 0 := by
        rw [openCount, countP_eq_zero]
        intro fh hfh
        exact find?_eq_none.mp hf fh (mem_reverse.mpr hfh)
      have hroom : l.openCount < cfg.maxOpenFiles := by omega
      exact ⟨rfl, hroom, fun _ heq => by cases heq⟩
  · have hlen' : l.openCount ≤ l.length := countP_le_length
    have hroom : l.openCount < cfg.maxOpenFiles := by omega
    exact ⟨rfl, hroom, fun _ heq => by cases heq⟩

end

structure Valid (cfg : Config) (held : List ℕ) (l : Handles ν) : Prop where
  counted : Counted held l.entries
  openCount : l.openCount ≤ cfg.maxOpenFiles

namespace Valid
variable {cfg : Config} {held : List ℕ}

section
variable (h : Valid cfg held l) {l' : Handles ν}
include h

theorem addrs : (l.map addr).Nodup := by
  rw [← addrs_entries]
  exact h.counted.addrs

theorem of_entries (hentries : l'.entries = l.entries)
    (hopen : l'.openCount ≤ cfg.maxOpenFiles) : Valid cfg held l' :=
  ⟨hentries ▸ h.counted, hopen⟩

theorem cacheFileHandle (hfh : fh ∈ l) (o : CacheOutcome) :
    Valid cfg held (l.cacheFileHandle fh o).handles := by
  have hk := cacheFileHandle_kept h.addrs hfh o
  exact h.of_entries hk.entries (Nat.le_trans hk.openCount h.openCount)

theorem put (hfh : fh ∈ l) (hsame : fh.Same fh') (hsome : fh.fd.isSome) :
    Valid cfg held (l.put fh') := by
  apply h.of_entries (entries_put_same h.addrs hfh hsame)
  exact Nat.le_trans (openCount_put_le h.addrs hfh hsome hsame.addr) h.openCount

theorem put_cached {o : CacheOutcome} (hfh : fh ∈ l) (hout : ¬(l.cacheFileHandle fh o).out.isNone)
    (hsame : (l.cacheFileHandle fh o).fh.Same fh') :
    Valid cfg held ((l.cacheFileHandle fh o).handles.put fh') := by
  have hk := cacheFileHandle_kept h.addrs hfh o
  exact (h.cacheFileHandle hfh o).put hk.mem hsame (hk.isSome (mt isNone_iff_eq_none.mpr hout))

theorem hostOpen1st (flags : OpenFlags)
    (hname : ∀ fh ∈ l, fh.fname ≠ .path name) (hfresh : ¬∃ fh ∈ l, o.malloc = some fh.addr) :
    Valid cfg ((l.hostOpen1st cfg name flags o).2.toList ++ held)
      (l.hostOpen1st cfg name flags o).1 := by
  have hroomy := cacheOutAny_roomy h.addrs h.openCount
  unfold Handles.hostOpen1st
  generalize l.cacheOutAny cfg = c at hroomy
  have hc : Valid cfg held c.1 := h.of_entries hroomy.entries (Nat.le_of_lt hroomy.room)
  simp only
  split
  · exact hc
  rename_i addr hmalloc
  split
  · constructor
    · have hadd : Counted (addr :: held) (l.entries ++ [⟨addr, .path name, 1⟩]) := by
        apply h.counted.add
        · intro e he hea
          obtain ⟨fh, hfh, rfl⟩ := mem_map.mp he
          exact hfresh ⟨fh, hfh, hmalloc.trans (congrArg some hea.symm)⟩
        · intro e he
          obtain ⟨fh, hfh, rfl⟩ := mem_map.mp he
          exact hname fh hfh
      rw [← hroomy.entries] at hadd
      rw [entries, map_append]
      exact hadd
    · have hroom := hroomy.room
      unfold Handles.openCount at hroom ⊢
      rw [countP_append, countP_singleton]
      simp only [isSome_some, if_true]
      omega
  · split
    next out hout =>
      have hopen := openCount_put hc.addrs (hroomy.out out hout) (out.same_cacheIn o.back).addr
      have := toNat_le (out.cacheIn o.back).fd.isSome
      have hroom := hroomy.room
      apply hc.of_entries (entries_put_same hc.addrs (hroomy.out out hout) (out.same_cacheIn _))
      omega
    · exact hc

theorem hostOpenOtherwise (hfh : fh ∈ l) (hp : fh.fname.isPath = true) (flags : OpenFlags)
    (hsafe : fh.otherFlags.excl = false → (l.cacheFileHandle fh o.cache).out ≠ none →
      (o.first.isSome ∧ o.access.isSome ∧ o.second.isSome) ∧ fh.refCount < 2 ^ 31 - 1) :
    Valid cfg ((l.hostOpenOtherwise fh flags o).2.toList ++ held)
      (l.hostOpenOtherwise fh flags o).1 := by
  have hkept := cacheFileHandle_kept h.addrs hfh o.cache
  have hvalid := h.cacheFileHandle hfh o.cache
  unfold Handles.hostOpenOtherwise
  generalize l.cacheFileHandle fh o.cache = c at hsafe hkept hvalid
  split_ifs with hexcl
  · exact h
  simp only
  split
  · exact hvalid
  rename_i out hout
  have hne : c.out ≠ none := by
    rw [hout]
    exact some_ne_none out
  obtain ⟨⟨hfirst, haccess, hsecond⟩, hlt⟩ := hsafe (eq_false_iff.mpr hexcl) hne
  obtain ⟨first, hfirst⟩ := isSome_iff_exists.mp hfirst
  obtain ⟨access, haccess⟩ := isSome_iff_exists.mp haccess
  obtain ⟨second, hsecond⟩ := isSome_iff_exists.mp hsecond
  simp only [hfirst, haccess, hsecond]
  have hp' : c.fh.entry.fname.isPath = true := by
    rw [hkept.same.entry_eq]
    exact hp
  have hlt' : c.fh.entry.refCount < 2 ^ 31 - 1 := by
    rw [hkept.same.entry_eq]
    exact hlt
  have hbump := hvalid.counted.bump (mem_entries hkept.mem) hp' hlt'
  have hpos := (hvalid.counted.counts _ (mem_entries hkept.mem) hp').1
  have hcount : toInt32 (c.fh.refCount + 1) = c.fh.refCount + 1 :=
    toInt32_eq (Int.add_pos hpos Int.one_pos) (by
      simp only [entry] at hlt'
      omega)
  constructor
  · rw [entries_put, entry, hcount]
    exact hkept.same.addr ▸ hbump
  · exact Nat.le_trans (openCount_put_le hvalid.addrs hkept.mem (hkept.isSome hne) rfl)
      hvalid.openCount

theorem hostOpen [DecidableEq ν] {flags : OpenFlags} {returned : Option ℕ}
    (hsafe : ∀ fh, l.checkFileHandleList (.path name) = some fh → fh.otherFlags.excl = false →
      (l.cacheFileHandle fh o.cache).out ≠ none →
      (o.first.isSome ∧ o.access.isSome ∧ o.second.isSome) ∧ fh.refCount < 2 ^ 31 - 1)
    (ho : l.hostOpen cfg name flags o = some (l', returned)) :
    Valid cfg (returned.toList ++ held) l' := by
  unfold Handles.hostOpen at ho
  split at ho
  next hnone =>
    split_ifs at ho with hfresh
    have hname : ∀ fh ∈ l, fh.fname ≠ .path name := by
      intro fh hfh
      simpa using find?_eq_none.mp hnone fh hfh
    have hopen := h.hostOpen1st flags hname hfresh
    rw [some.inj ho] at hopen
    exact hopen
  next fh hfh =>
    obtain ⟨hmem, hname⟩ := lookup_eq_some hfh
    have hp : fh.fname.isPath = true := by
      rw [hname]
      rfl
    have hopen := h.hostOpenOtherwise hmem hp flags (hsafe fh hfh)
    rw [some.inj ho] at hopen
    exact hopen

theorem hostClose (hfh : fh ∈ l) (hheld : fh.addr ∈ held) (opened : Option ℕ) :
    Valid cfg (held.erase fh.addr) (l.hostClose cfg fh opened) := by
  have hp : fh.entry.fname.isPath = true := by
    obtain ⟨e, he, hea, hp⟩ := h.counted.held _ hheld
    rwa [inj_on_of_nodup_map h.counted.addrs he (mem_entries hfh) hea] at hp
  have hcount := h.counted.counts _ (mem_entries hfh) hp
  unfold Handles.hostClose
  split_ifs with hone hcached
  · have hremove := h.counted.remove (mem_entries hfh) hp hone
    split
    next closed hclosed =>
      have hmem : closed ∈ l := mem_of_find?_eq_some hclosed
      have hnone : closed.fd.isNone := by simpa using find?_some hclosed
      have hne : fh.addr ≠ closed.addr := by
        intro heq
        rw [← inj_on_of_nodup_map h.addrs hfh hmem heq] at hnone
        simp [isNone_iff_eq_none.mp hnone] at hcached
      have hsame := closed.same_cacheIn opened
      have hn := nodup_put h.addrs (closed.cacheIn opened)
      have hfh' : fh ∈ l.put (closed.cacheIn opened) := mem_put_of_ne hfh hne
      constructor
      · rw [entries_destroy, entries_put_same h.addrs hmem hsame]
        exact hremove
      · have hopen := openCount_put h.addrs hmem hsame.addr
        have hopen' : ((l.put (closed.cacheIn opened)).destroyFileHandle fh.addr).openCount +
            fh.fd.isSome.toNat = (l.put (closed.cacheIn opened)).openCount := countP_remove hn hfh'
        have := toNat_le (closed.cacheIn opened).fd.isSome
        have := h.openCount
        rw [hcached.1, toNat_true] at hopen'
        omega
    · -- more handles than descriptors, so one has none
      rename_i hclosed
      have hall : l.openCount = l.length := by
        rw [Handles.openCount, countP_eq_length]
        intro g hg
        simpa [isSome_iff_ne_none] using find?_eq_none.mp hclosed g hg
      have := h.openCount
      omega
  · constructor
    · rw [entries_destroy]
      exact h.counted.remove (mem_entries hfh) hp hone
    · exact Nat.le_trans remove_sublist.countP_le h.openCount
  · have hdrop := h.counted.drop (mem_entries hfh) hp hone
    have hcount' : toInt32 (fh.refCount - 1) = fh.refCount - 1 := by
      simp only [entry] at hcount
      apply toInt32_eq <;> omega
    have hopen : (l.put { fh with refCount := toInt32 (fh.refCount - 1) }).openCount +
        fh.fd.isSome.toNat = l.openCount + fh.fd.isSome.toNat := openCount_put h.addrs hfh rfl
    constructor
    · rw [entries_put, entry, hcount']
      exact hdrop
    · have := h.openCount
      omega

end
end Valid
end Handles

def Request.Safe [DecidableEq ν] (s : State ν) : Request ν → Prop
  | .open name _ o =>
    ∀ fh, s.handles.checkFileHandleList (.path name) = some fh → fh.otherFlags.excl = false →
      (s.handles.cacheFileHandle fh o.cache).out ≠ none →
      (o.first.isSome ∧ o.access.isSome ∧ o.second.isSome) ∧ fh.refCount < 2 ^ 31 - 1
  | .close addr _ => addr ∈ s.held
  | _ => True

namespace State
variable {cfg : Config} {s s' : State ν} {req : Request ν}

theorem valid_init (io : Stdio) (cfg : Config) :
    Handles.Valid cfg [] (State.init io : State ν).handles where
  counted :=
    { addrs := io.distinct
      names := by simp [State.init, entries, entry, StdioFile.handle]
      counts := by simp [State.init, entries, entry, StdioFile.handle,
        FileName.isPath]
      held := fun _ ha => by cases ha }
  openCount := Nat.le_trans countP_le_length cfg.stdio_le

variable [DecidableEq ν]

theorem valid_step (h : Handles.Valid cfg s.held s.handles) (hsafe : req.Safe s)
    (hs : s.step cfg req = some s') : Handles.Valid cfg s'.held s'.handles := by
  cases req with
  | «open» name flags o =>
    obtain ⟨⟨handles, returned⟩, ho, rfl⟩ := map_eq_some_iff.mp hs
    exact h.hostOpen hsafe ho
  | close addr opened =>
    obtain ⟨fh, hfh, rfl⟩ := map_eq_some_iff.mp hs
    obtain ⟨hmem, rfl⟩ := lookup_eq_some hfh
    exact h.hostClose hmem hsafe opened
  | cache addr o =>
    obtain ⟨fh, hfh, rfl⟩ := map_eq_some_iff.mp hs
    exact h.cacheFileHandle (lookup_eq_some hfh).1 o
  | read addr o cmd nbytes buf outcomes =>
    simp only [State.step, bind_eq_bind, bind_eq_some_iff] at hs
    obtain ⟨fh, hfh, hs⟩ := hs
    split_ifs at hs with hout
    · cases hs
      exact h.cacheFileHandle (lookup_eq_some hfh).1 o
    · obtain ⟨⟨fh', blocks⟩, hr, hs⟩ := bind_eq_some_iff.mp hs
      cases hs
      exact h.put_cached (lookup_eq_some hfh).1 hout (same_hostRead hr)
  | write addr o cmd data size buf outcomes =>
    simp only [State.step, bind_eq_bind, bind_eq_some_iff] at hs
    obtain ⟨fh, hfh, hs⟩ := hs
    split_ifs at hs with hout
    · cases hs
      exact h.cacheFileHandle (lookup_eq_some hfh).1 o
    · obtain ⟨⟨fh', blocks, rtlmessages⟩, hw, hs⟩ := bind_eq_some_iff.mp hs
      cases hs
      exact h.put_cached (lookup_eq_some hfh).1 hout (same_hostWrite hw)

def HandlesValid (s : State ν) : Prop :=
  (∀ addr ∈ s.held, ∃ fh ∈ s.handles, fh.addr = addr ∧ fh.refCount = s.held.count addr) ∧
    (s.handles.map FileHandle.fname).Nodup

theorem open_handles_valid {io : Stdio}
    (h : Reaches (State.step cfg) (fun s req => req.Safe s) (State.init io : State ν) s) :
    s.HandlesValid := by
  have hvalid : Handles.Valid cfg s.held s.handles :=
    h.invariant (P := fun s => Handles.Valid cfg s.held s.handles) (valid_init io cfg)
      fun hv hsafe hs => valid_step hv hsafe hs
  constructor
  · intro addr haddr
    obtain ⟨e, he, rfl, hp⟩ := hvalid.counted.held addr haddr
    have hcount := (hvalid.counted.counts e he hp).2.2
    obtain ⟨fh, hfh, rfl⟩ := mem_map.mp he
    exact ⟨fh, hfh, rfl, hcount⟩
  · have hnames := hvalid.counted.names
    rw [entries, List.map_map] at hnames
    exact hnames

def exampleReopen (first : Option ℕ) : Request Unit :=
  .open () noFlags ⟨none, noOpen, first, some .rdwr, first, none⟩

theorem open_handles_valid_twice : ∃ s : State Unit,
    Reaches (State.step exampleConfig) (fun s req => req.Safe s) (State.init exampleStdio) s ∧
      s.held = [3, 3] ∧ s.HandlesValid := by
  have hopen : Reaches (State.step exampleConfig) (fun s req => req.Safe s)
      (State.init exampleStdio) _ := Reaches.init.step (exampleOpen 6) (fun _ h => by cases h) rfl
  have hreopen := hopen.step (exampleReopen (some 7)) ?_ rfl
  · exact ⟨_, hreopen, rfl, open_handles_valid hreopen⟩
  · intro fh hfh _ _
    cases hfh
    decide

/-- `yod` never has more descriptors open than it may. -/
theorem open_files_bounded {io : Stdio}
    (h : Reaches (State.step cfg) (fun s req => req.Safe s) (State.init io : State ν) s) :
    s.handles.openCount ≤ cfg.maxOpenFiles := by
  have hvalid : Handles.Valid cfg s.held s.handles :=
    h.invariant (P := fun s => Handles.Valid cfg s.held s.handles) (valid_init io cfg)
      fun hv hsafe hs => valid_step hv hsafe hs
  exact hvalid.openCount

def fourFiles : Config := ⟨4, by decide, false⟩

def openNamed (name : Bool) (addr : ℕ) : Request Bool :=
  .open name noFlags ⟨some addr, noOpen, some 6, some .rdwr, some 6, none⟩

theorem open_files_bounded_cacheOut : ∃ s : State Bool,
    Reaches (State.step fourFiles) (fun s req => req.Safe s) (State.init exampleStdio) s ∧
      s.held = [4, 3] ∧ s.handles.openCount ≤ 4 := by
  have hopen : Reaches (State.step fourFiles) (fun s req => req.Safe s) (State.init exampleStdio) _ :=
    Reaches.init.step (openNamed false 3) (fun _ h => by cases h) rfl
  have hnext := hopen.step (openNamed true 4) (fun _ h => by cases h) rfl
  exact ⟨_, hnext, rfl, open_files_bounded hnext⟩

theorem shared_handle_destroyed : ∃ s : State Unit,
    Reaches (State.step exampleConfig) (fun _ _ => True) (State.init exampleStdio) s ∧
      ¬s.HandlesValid := by
  refine exists_reaches_imp (P := fun s => 3 ∈ s.held ∧ ∀ fh ∈ s.handles, fh.addr ≠ 3)
    [exampleOpen 6, exampleReopen none] (by decide +kernel) fun s _ ⟨hheld, hall⟩ h => ?_
  obtain ⟨fh, hfh, haddr, -⟩ := h.1 3 hheld
  exact hall fh hfh haddr

end State
end Cplant.Yod
