import FileHash.BucketPages
import FileHash.Cursor
import FileHash.HashHeader
import FileHash.Metadata
import FileHash.MovePages
import FileHash.PageFilters

/-! The calls of `ffdb_hash.c`: expansion of the table, get and put, sync, and how a
database is opened and closed. Each public call starts with no page of its own in hand. -/
namespace FileHash.Htab

open Lib (Prog)
open Page

/-- `"%$sniglet^&"` with its terminator. -/
def charkey : List UInt8 := [37, 36, 115, 110, 105, 103, 108, 101, 116, 94, 38, 0]

/-- `__ham_func5`. -/
def hamFunc5 (key : List UInt8) : Nat :=
  key.foldl (fun h k => u32 (h * 16777619) ^^^ k.toNat) 0

/-- `_ffdb_flush_meta`. -/
def flushMeta : Run Unit := do
  let hashp ← Prog.read
  if hashp.rdonly then pure ()
  else
    let hdr := { hashp.hdr with hCharkey := u32 (hashp.hash charkey) }
    Prog.modify fun hashp =>
      { hashp with hdr := hdr, mp := { hashp.mp with file := hdr.put hashp.mp.file } }

def syncPool : Run Unit := pool (Prog.modify Pagepool.sync)

def growMasks (hdr : Hashhdr) : Hashhdr :=
  let newBucket := u32 (hdr.maxBucket + 1)
  let hdr := { hdr with maxBucket := newBucket }
  if hdr.highMask < newBucket then
    { hdr with lowMask := hdr.highMask, highMask := newBucket ||| hdr.highMask }
  else hdr

/-- `_ffdb_expand_table`. -/
def expandTable : Run Int := do
  let hashp ← Prog.read
  let newBucket := u32 (hashp.hdr.maxBucket + 1)
  let oldBucket := newBucket &&& hashp.hdr.lowMask
  if oldBucket = newBucket then Prog.mark .selfSplit
  Prog.modify (setHdr growMasks)
  let spareIndx := ffdbLog2 (u32 (newBucket + 1))
  let isdoubling := decide (hashp.hdr.ovflPoint < spareIndx)
  if isdoubling then
    Prog.modify fun hashp =>
      { setHdr (fun hdr => { hdr with ovflPoint := spareIndx }) hashp with currDpage := invalidPgno }
  let hashp ← Prog.read
  if hashp.hdr.bucketToPage newBucket = maxPages then Prog.halt .exit
  else if ← newPage newBucket hashBucketPage then
    if isdoubling then
      flushMeta
      syncPool
    splitBucket oldBucket newBucket
  else pure (-1)

def enter : Run Unit := Prog.modify fun hashp => { hashp with held := [] }

/-- `_ffdb_hash_get`: status and bytes; `room` is the size of the caller's buffer, or `0`. -/
def hashGet (key : Dbt) (room : Nat) : Run (Int × List UInt8) := do
  enter
  let bucket ← callHash key
  match ← findItem bucket key none with
  | none => pure (-1, [])
  | some item =>
    if item.status = .noMore then
      releaseItem item.pagep
      pure (ffdbNotFound, [])
    else getItem item.pagep item.pgno item.pgndx room true

/-- What `_ffdb_hash_put` tests before it looks at a page. -/
def putRefused (hashp : Htab) (key data : Dbt) (flag : Nat) : Bool :=
  decide ((if ffdbVersion5 < hashp.hdr.version then ffdbMaxDatasize else 0xffffffff) < data.size) ||
    decide (maxKeysize hashp.hdr.bsize < key.size) ||
    (flag != 0 && flag != ffdbNooverwrite) || hashp.rdonly

def countKey : Run Unit :=
  Prog.modify (setHdr fun hdr => { hdr with nkeys := u32 (hdr.nkeys + 1) })

/-- The branch of `_ffdb_hash_put` for a key that is not there. -/
def putNew (key data : Dbt) (item : Hent) : Run Int := do
  let p ← page item.pagep
  if pairfits p key.size then
    let status ← addPair key data item false
    if status = 0 then countKey
    pure status
  else
    let status ← addOvflpage key data item
    if status ≠ 0 then pure status
    else
      let status ← expandTable
      countKey
      pure status

def putOld (key data : Dbt) (item : Hent) (flag : Nat) : Run Int := do
  if flag = ffdbNooverwrite then
    leak item.pagep .refused
    pure (-1)
  else
    let status ← addPair key data item true
    if status ≠ 0 then pure (-1) else pure 0

/-- `_ffdb_hash_put`. -/
def hashPut (key data : Dbt) (flag : Nat) : Run Int := do
  enter
  let hashp ← Prog.read
  if putRefused hashp key data flag then pure (-1)
  else
    let bucket ← callHash key
    match ← findItem bucket key (some data) with
    | none => pure (-1)
    | some item =>
      if item.status = .noMore then putNew key data item else putOld key data item flag

/-- `_ffdb_hash_sync`. -/
def hashSync : Run Unit := do
  enter
  flushMeta
  syncPool

/-- `ffdb_set_all_configs`. -/
def setAllConfigs (numconfigs : Nat) (configs : Nat → ConfigInfo) : Run Int := do
  enter
  let hashp ← Prog.read
  if numconfigs ≠ hashp.hdr.numCfigs then pure (-1) else setConfigs configs

/-- `ffdb_get_all_configs`. -/
def getAllConfigs : Run (Int × List ConfigInfo) := do
  enter
  getConfigs

def validIndex (index limit : Nat) : Bool := decide (index < limit) && decide (index < 0x80000000)

/-- `ffdb_set_config`. -/
def setConfig (config : ConfigInfo) : Run Int := do
  enter
  let hashp ← Prog.read
  if validIndex config.index hashp.hdr.numCfigs then
    setConfigInfoLoop config hashp.hdr.cfigNpages hashp.hdr.cfigPage
  else pure (-1)

/-- `ffdb_get_config`; `index` is the one in the record the caller hands in, compared with
the number of pages. -/
def getConfig (confignum index : Nat) : Run (Int × Option ConfigInfo) := do
  enter
  let hashp ← Prog.read
  if validIndex index hashp.hdr.cfigNpages then
    getConfigInfoLoop confignum hashp.hdr.cfigNpages hashp.hdr.cfigPage
  else pure (-1, none)

/-- `ffdb_set_user_info`. -/
def setUserInfo (data : Dbt) : Run Int := do
  enter
  let hashp ← Prog.read
  if hashp.hdr.uinfolen < data.size then pure (-1) else setUinfo data

/-- `ffdb_get_user_info`. -/
def getUserInfo (len : Nat) : Run (Int × Nat × List UInt8) := do
  enter
  getUinfo len

/-- `_ffdb_cursor_get` as a public call. -/
def cursorCall (crs : Crs) (keyRoom : Nat) (dataRoom : Option Nat) (flags : Nat) :
    Run (Int × Crs × List UInt8 × List UInt8) := do
  enter
  Prog.modify fun hashp => { hashp with held := crs.pagep.toList }
  cursorGet crs keyRoom dataRoom flags

/-- `_ffdb_cursor_close` as a public call. -/
def cursorCloseCall (crs : Crs) : Run Unit := do
  enter
  Prog.modify fun hashp => { hashp with held := crs.pagep.toList }
  cursorClose crs

/-- `FFDB_HASHINFO`. -/
structure Hashinfo where
  bsize : Nat
  nbuckets : Nat
  cachesize : Nat
  rearrangepages : Bool
  userinfolen : Nat
  numconfigs : Nat
  hash : Option (List UInt8 → Nat)
  cmp : Option (Dbt → Dbt → Int)

/-- What a process brings to an open: flags, options, the block size of the file system,
memory, and which page fetches will fail. -/
structure Opening where
  rdonly : Bool
  info : Option Hashinfo
  blksize : Nat
  mem : Nat → Bkt
  fault : Nat → Bool

def Opening.hash (o : Opening) : List UInt8 → Nat := (o.info.bind Hashinfo.hash).getD hamFunc5

def Opening.cmp (o : Opening) : Dbt → Dbt → Int := (o.info.bind Hashinfo.cmp).getD hamDefcmp

/-- An option of which `0` stands for the default. -/
def Opening.option (o : Opening) (field : Hashinfo → Nat) (default : Nat) : Nat :=
  match o.info with
  | some info => if field info = 0 then default else field info
  | none => default

/-- `_ffdb_init_hash`: the page size of a new file and its logarithm, if it is accepted. -/
def initHash (o : Opening) : Option (Nat × Nat) :=
  let asked := o.option Hashinfo.bsize 0
  if asked = 0 then some (o.blksize, ffdbLog2 o.blksize)
  else
    let bshift := ffdbLog2 asked
    if maxBsize < 2 ^ bshift ∨ 2 ^ bshift < hashhdrSize then none else some (2 ^ bshift, bshift)

/-- The loop of `_ffdb_num_config_info_pages`, with `num` records to go. -/
def configInfoPages (each : Nat) : Nat → Nat → Nat → Nat
  | 0, _, npages => npages
  | fuel + 1, num, npages =>
    if 0 < num then configInfoPages each fuel (num - min each num) (npages + 1) else npages

/-- `_ffdb_num_config_info_pages`, for pages with room for a record. -/
def numConfigInfoPages (bsize num : Nat) : Nat :=
  configInfoPages ((bsize - pageOverhead) / configInfoSize) num num 0

def numUinfoPages (bsize uinfolen : Nat) : Nat :=
  let each := bsize - pageOverhead
  let uinfosize := u32 (uinfolen + 4)
  uinfosize / each + (if uinfosize % each = 0 then 0 else 1)

def initSpares (nhdrPages l2 i : Nat) : Nat :=
  if l2 < i then 0 else if i = 0 then nhdrPages else nhdrPages + 2 ^ (i - 1)

def shiftOne (v : Nat) : Nat := v / 2 + (if 0x80000000 ≤ v then 0x80000000 else 0)

/-- The header that `_ffdb_init_htab` sets up. -/
def initHdr (o : Opening) (bsize bshift : Nat) : Hashhdr :=
  let l2 := ffdbLog2 (o.option Hashinfo.nbuckets 1)
  let nbuckets := 2 ^ l2
  let uinfolen := o.option Hashinfo.userinfolen ffdbDefaultUinfoLen
  let numCfigs := o.option Hashinfo.numconfigs 1
  let uinfoNpages := numUinfoPages bsize uinfolen
  let cfigNpages := numConfigInfoPages bsize numCfigs
  let nhdrPages := 1 + uinfoNpages + cfigNpages
  { magic := ffdbHashmagic, version := ffdbVersion, lorder := littleEndian, bsize := bsize,
    bshift := bshift, ovflPoint := l2, maxBucket := nbuckets - 1, highMask := nbuckets - 1,
    lowMask := u32 (shiftOne nbuckets + 0xffffffff), ffactor := defFfactor, nkeys := 0,
    hdrpages := nhdrPages, uinfolen := uinfolen, uinfoPage := 1,
    uinfoNpages := uinfoNpages % 65536, cfigPage := (1 + uinfoNpages) % 65536,
    cfigNpages := cfigNpages % 65536, numCfigs := numCfigs, hCharkey := 0, numMovedPages := 0,
    spares := initSpares nhdrPages l2, freePages := fun _ => invalidPgno }

/-- `_ffdb_init_htab`; for more than `2 ^ 31` buckets the loop of `__ffdb_log2` has no end. -/
def initHtab (o : Opening) (bsize bshift : Nat) : Option Hashhdr :=
  if 0x80000000 < o.option Hashinfo.nbuckets 1 then none else some (initHdr o bsize bshift)

/-- The table `__ffdb_hash_open` builds around a header. -/
def tableOf (o : Opening) (hdr : Hashhdr) (newFile : Bool) (file : Pagefile) : Htab :=
  let swapped := hdr.lorder != littleEndian
  { hdr := hdr, hash := o.hash, hCompare := o.cmp, rdonly := o.rdonly, newFile := newFile,
    splitBuf := fun _ => 0, currDpage := invalidPgno,
    rearrangePages := (o.info.map Hashinfo.rearrangepages).getD true
    dataValidFlag := if hdr.version = ffdbVersion5 then dataValid5 else dataValid
    mp := Pagepool.openFd file o.mem o.rdonly (o.option Hashinfo.cachesize defCachesize / hdr.bsize)
      (pginRoutine hdr.bsize swapped) (pgoutRoutine hdr.bsize swapped)
    fault := o.fault, fetches := 0, held := [] }

/-- The start of `__ffdb_hash_open` on a new file; `none` when it does not get that far. -/
def freshTable (o : Opening) : Option Htab := do
  let (bsize, bshift) ← initHash o
  let hdr ← initHtab o bsize bshift
  pure (tableOf o hdr true ⟨0, fun _ _ => 0⟩)

/-- The start of `__ffdb_hash_open` on a file that exists: a header whose checksum is wrong
ends the process, one of another kind or hash function is refused; `none` is either. -/
def knownTable (o : Opening) (file : Pagefile) : Option Htab :=
  let hdr := Hashhdr.decode (file.read 0)
  if Hashhdr.checks (file.read 0) ∧ hdr.magic = ffdbHashmagic ∧
      (hdr.version = ffdbVersion ∨ hdr.version = ffdbVersion5) ∧
      u32 (o.hash charkey) = hdr.hCharkey then
    some (tableOf o hdr false file)
  else none

/-- The first loop of `_ffdb_read_user_info` and `_ffdb_read_config_info`: the pages of a
new file are made. -/
def makePages (addrtype : Nat) : Nat → Nat → Run Unit
  | 0, _ => pure ()
  | npages + 1, pgno => do
    let _ ← newPage pgno addrtype
    makePages addrtype npages (u32 (pgno + 1))

def lockPages (addrtype : Nat) : Nat → Nat → Run Unit
  | 0, _ => pure ()
  | npages + 1, pgno => do
    let hashp ← Prog.read
    let save := !hashp.rdonly
    match (← getPage pgno addrtype { dirty := save, locked := save }).1 with
    | none => Prog.halt .segv
    | some mem =>
      putPage mem save
      lockPages addrtype npages (u32 (pgno + 1))

/-- `_ffdb_read_user_info` and `_ffdb_read_config_info` differ in the pages they are about. -/
def readInfo (addrtype start npages : Nat) : Run Unit := do
  let hashp ← Prog.read
  if hashp.newFile then makePages addrtype npages start
  lockPages addrtype npages start

def readUserInfo : Run Unit := do
  let hashp ← Prog.read
  readInfo hashUinfoPage hashp.hdr.uinfoPage hashp.hdr.uinfoNpages

def readConfigInfo : Run Unit := do
  let hashp ← Prog.read
  readInfo hashConfigPage hashp.hdr.cfigPage hashp.hdr.cfigNpages

/-- The rest of `__ffdb_hash_open`, on the table it has built. -/
def openPages : Run Unit := do
  readUserInfo
  readConfigInfo
  let hashp ← Prog.read
  if !hashp.newFile && !hashp.rdonly && (hashp.rearrangePages || decide (0 < hashp.hdr.numMovedPages)) then
    rearragePagesOnOpen
  let hashp ← Prog.read
  let spare := hashp.hdr.spares (hashp.hdr.ovflPoint + 1)
  if 0 < spare then
    let last ← lastDataPage pageFuel (u32 (spare + 0xffffffff))
    Prog.modify fun hashp => { hashp with currDpage := last }

/-- `_ffdb_hdestroy` up to the closing of the pool. -/
def hdestroy : Run Unit := do
  enter
  let hashp ← Prog.read
  if hashp.rearrangePages && !hashp.rdonly then rearragePagesOnClose
  flushMeta
  syncPool

/-- The file that `_ffdb_hdestroy` leaves. `ftruncate` is refused on a descriptor that was opened
for reading, and the code goes on after its message. -/
def closedFile (hashp : Htab) : Pagefile :=
  let file := hashp.mp.close
  if hashp.rearrangePages && !hashp.rdonly then reduceFilesize hashp.hdr file else file

end FileHash.Htab
