import FileHash.DataPages

/-! User information and configuration records, on pages of their own behind the
header. A configuration record is kept as its bytes. -/
namespace FileHash.Htab

open Lib (Prog)
open Page

/-- `ffdb_config_info_t`, 148 bytes. -/
abbrev ConfigInfo := Lib.Mem

def ConfigInfo.config (c : ConfigInfo) : Nat := c.read32 0
def ConfigInfo.index (c : ConfigInfo) : Nat := c.read32 4

/-- `CONFIG_INFO(P, N)`. -/
def configInfo (p : Page) (k : Nat) : ConfigInfo := Lib.Mem.drop p (configInfoAt k)

def setConfigInfo (k : Nat) (c : ConfigInfo) (p : Page) : Page :=
  p.copy (configInfoAt k) c configInfoSize

/-- One page of `ffdb_set_configs`. -/
def fillConfigs (bsize cnum tnums : Nat) (configs : Nat → ConfigInfo) (p : Page) : Page :=
  let p := p.setNumEnt (min ((bsize - pageOverhead) / configInfoSize) tnums)
  (List.range p.numEnt).foldl (fun q k => setConfigInfo k (configs (cnum + k)) q) p

/-- The loop of `ffdb_set_configs` over pages. -/
def setConfigsLoop (configs : Nat → ConfigInfo) : Nat → Nat → Nat → Nat → Run Int
  | 0, _, _, _ => pure 0
  | npages + 1, pgno, cnum, tnums => do
    let hashp ← Prog.read
    match (← getPage pgno hashConfigPage {}).1 with
    | none => pure (-1)
    | some pagep =>
      store pagep (fillConfigs hashp.hdr.bsize cnum tnums configs)
      let p ← page pagep
      putPage pagep true
      setConfigsLoop configs npages (u32 (pgno + 1)) (cnum + p.numEnt)
        (tnums - min ((hashp.hdr.bsize - pageOverhead) / configInfoSize) tnums)

/-- `ffdb_set_configs`. -/
def setConfigs (configs : Nat → ConfigInfo) : Run Int := do
  let hashp ← Prog.read
  setConfigsLoop configs hashp.hdr.cfigNpages hashp.hdr.cfigPage 0 hashp.hdr.numCfigs

/-- The loop of `ffdb_get_configs` over pages. -/
def getConfigsLoop : Nat → Nat → List ConfigInfo → Run (Int × List ConfigInfo)
  | 0, _, sofar => pure (0, sofar)
  | npages + 1, pgno, sofar => do
    match (← getPage pgno hashConfigPage {}).1 with
    | none => pure (-1, sofar)
    | some pagep =>
      let p ← page pagep
      putPage pagep false
      getConfigsLoop npages (u32 (pgno + 1)) (sofar ++ (List.range p.numEnt).map (configInfo p))

/-- `ffdb_get_configs`. -/
def getConfigs : Run (Int × List ConfigInfo) := do
  let hashp ← Prog.read
  getConfigsLoop hashp.hdr.cfigNpages hashp.hdr.cfigPage []

/-- The loop of `ffdb_set_config_info` over pages. -/
def setConfigInfoLoop (config : ConfigInfo) : Nat → Nat → Run Int
  | 0, _ => pure (-1)
  | npages + 1, pgno => do
    match (← getPage pgno hashConfigPage {}).1 with
    | none => pure (-1)
    | some pagep =>
      let p ← page pagep
      match (List.range p.numEnt).find? fun k =>
          (configInfo p k).index == config.index && (configInfo p k).config == config.config with
      | some k =>
        store pagep (setConfigInfo k config)
        putPage pagep true
        pure 0
      | none =>
        putPage pagep false
        setConfigInfoLoop config npages (u32 (pgno + 1))

/-- The loop of `ffdb_get_config_info` over pages. -/
def getConfigInfoLoop (confignum : Nat) : Nat → Nat → Run (Int × Option ConfigInfo)
  | 0, _ => pure (-1, none)
  | npages + 1, pgno => do
    match (← getPage pgno hashConfigPage {}).1 with
    | none => pure (-1, none)
    | some pagep =>
      let p ← page pagep
      match (List.range p.numEnt).find? fun k => (configInfo p k).config == confignum with
      | some k =>
        putPage pagep false
        pure (0, some (configInfo p k))
      | none =>
        putPage pagep false
        getConfigInfoLoop confignum npages (u32 (pgno + 1))

def uinfoOffset (first : Bool) : Nat := if first then pageOverhead + 4 else pageOverhead

def uinfoLen (bsize : Nat) (first : Bool) (rlen : Nat) : Nat := min rlen (bsize - uinfoOffset first)

/-- One page of `ffdb_set_uinfo`. -/
def fillUinfo (bsize : Nat) (data : Dbt) (first : Bool) (rlen : Nat) (p : Page) : Page :=
  let p := if first then (p.setNumEnt 1).setUserDataLen rlen else p.setNumEnt 0
  p.copy (uinfoOffset first) (Lib.Mem.drop data.data (data.size - rlen)) (uinfoLen bsize first rlen)

/-- The loop of `ffdb_set_uinfo` over pages. -/
def setUinfoLoop (data : Dbt) : Nat → Nat → Bool → Nat → Run Int
  | 0, _, _, _ => pure 0
  | npages + 1, pgno, first, rlen => do
    let hashp ← Prog.read
    match (← getPage pgno hashUinfoPage {}).1 with
    | none => pure (-1)
    | some pagep =>
      store pagep (fillUinfo hashp.hdr.bsize data first rlen)
      putPage pagep true
      setUinfoLoop data npages (u32 (pgno + 1)) false
        (rlen - uinfoLen hashp.hdr.bsize first rlen)

/-- `ffdb_set_uinfo`. -/
def setUinfo (data : Dbt) : Run Int := do
  let hashp ← Prog.read
  setUinfoLoop data hashp.hdr.uinfoNpages hashp.hdr.uinfoPage true data.size

/-- The loop of `ffdb_get_uinfo` over the pages behind the first. -/
def getUinfoLoop : Nat → Nat → Nat → List UInt8 → Run (Int × List UInt8)
  | 0, _, _, sofar => pure (0, sofar)
  | npages + 1, pgno, rlen, sofar => do
    let hashp ← Prog.read
    match (← getPage pgno hashUinfoPage {}).1 with
    | none => pure (-1, sofar)
    | some pagep =>
      let p ← page pagep
      let copylen := uinfoLen hashp.hdr.bsize false rlen
      putPage pagep false
      getUinfoLoop npages (u32 (pgno + 1)) (rlen - copylen)
        (sofar ++ (Lib.Mem.drop p (uinfoOffset false)).bytes copylen)

/-- `ffdb_get_uinfo` into a buffer of `len` bytes; the new length and the bytes that are written. -/
def getUinfo (len : Nat) : Run (Int × Nat × List UInt8) := do
  let hashp ← Prog.read
  let pgno := hashp.hdr.uinfoPage
  match hashp.hdr.uinfoNpages with
  | 0 => pure (0, len, [])
  | npages + 1 =>
    match (← getPage pgno hashUinfoPage {}).1 with
    | none => pure (-1, len, [])
    | some pagep =>
      let p ← page pagep
      if len < p.userDataLen then
        leak pagep .shortUinfo
        pure (-1, len, [])
      else
        let copylen := uinfoLen hashp.hdr.bsize true p.userDataLen
        putPage pagep false
        let r ← getUinfoLoop npages (u32 (pgno + 1)) (p.userDataLen - copylen)
          ((Lib.Mem.drop p (uinfoOffset true)).bytes copylen)
        pure (r.1, p.userDataLen, r.2)

end FileHash.Htab
