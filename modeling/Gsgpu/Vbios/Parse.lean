import Gsgpu.Lib.Bytes

/-! The parser of the VBIOS image: a header that the first descriptor points to, a table of
descriptors of it, and the resources made of the data that each of them points to. None is a read
outside the image, or one of a resource that is not there. -/
namespace Gsgpu.Vbios
open Bytes

/-- `VBIOS_SIZE`. -/
def vbiosSize : ℕ := 0x400000

/-- `VBIOS_DESC_OFFSET`. -/
def vbiosDescOffset : ℕ := 0x6000

/-- `VBIOS_DESC_TOTAL`. -/
def vbiosDescTotal : ℕ := 0xA00

abbrev Image := Buffer vbiosSize

/-- `sizeof(struct vbios_desc)`; its fields are `type`, `ver`, `link`, `offset` and `size`, at 0, 2,
3, 4 and 8. -/
def descBytes : ℕ := 28

def descHeader : ℕ := 0
def descMax : ℕ := 0xffff

/-- What `parse_vbios_info` adds to the header resource. -/
structure HeaderInfo where
  links : ℕ
  verMajor : ℕ
  verMinor : ℕ
  name : List (BitVec 8)

/-- `struct header_resource`; its memory is not set when it is allocated. -/
structure Header where
  oemVendor : List (BitVec 8)
  oemProduct : List (BitVec 8)
  info : Option HeaderInfo

structure Crtc where
  feature : ℕ
  crtcId : ℕ
  encoderId : ℕ
  maxFreq : ℕ
  maxWidth : ℕ
  maxHeight : ℕ
  isVbTiming : Bool

/-- The resources other than `struct resource_object`, by `enum resource_type`. The chip of an encoder
and the EDID of a connector are none where nothing was put into the memory allocated for them. -/
inductive Payload
  | header (header : Header)
  | crtc (crtc : Crtc)
  | encoder (feature i2cId connectorId type configType : ℕ) (chip : Option ℕ) (chipAddr : ℕ)
  | connector (feature i2cId : ℕ) (internalEdid : Option (List (BitVec 8)))
      (type hotplug edidMethod irqGpio gpioPlacement : ℕ)
  | i2c (feature id speed : ℕ)
  | pwm (feature pwm polarity peroid : ℕ)
  | gpu (vramType bitWidth cap countFreq freq shadersNum shadersFreq : ℕ)

/-- A resource of `resource_list`; the header has no link. -/
structure Resource where
  link : Option ℕ
  payload : Payload

/-- A field of a structure that was copied. -/
def field (bytes : List (BitVec 8)) (offset n : ℕ) : ℕ := value ((bytes.drop offset).take n)

/-- The `vbios_create_*_resource`: a structure is filled with `VBIOS_DATA_INVAL`, and as much of it
as the descriptor has copied over it. `alloc` tells whether `kvmalloc` succeeds. -/
def createResource (structSize : ℕ) (decode : List (BitVec 8) → Payload) (img : Image)
    (alloc : Bool) (data : ℕ) (link : Option ℕ) (size : ℕ) : Option (Option Resource) :=
  if alloc then do
    let bytes ← img.read data (min size structSize)
    return some ⟨link, decode (bytes ++ List.replicate (structSize - bytes.length) 0xFF)⟩
  else return none

def createHeaderResource (img : Image) (alloc : Bool) (data size : ℕ) : Option (Option Resource) :=
  createResource 92 (fun bytes =>
    .header ⟨(bytes.drop 4).take 32, (bytes.drop 36).take 32, none⟩) img alloc data none size

def createCrtcResource (img : Image) (alloc : Bool) (data link size : ℕ) :
    Option (Option Resource) :=
  createResource 25 (fun bytes => .crtc
    { feature := field bytes 0 4
      crtcId := field bytes 4 4
      encoderId := field bytes 8 4
      maxFreq := field bytes 12 4
      maxWidth := field bytes 16 4
      maxHeight := field bytes 20 4
      isVbTiming := field bytes 24 1 ≠ 0 }) img alloc data (some link) size

def createEncoderResource (img : Image) (alloc : Bool) (data link size : ℕ) :
    Option (Option Resource) :=
  createResource 25 (fun bytes => .encoder (field bytes 0 4) (field bytes 4 4) (field bytes 8 4)
    (field bytes 12 4) (field bytes 16 4) none (field bytes 24 1)) img alloc data (some link) size

def createConnectorResource (img : Image) (alloc : Bool) (data link size : ℕ) :
    Option (Option Resource) :=
  createResource 284 (fun bytes => .connector (field bytes 0 4) (field bytes 4 4) none
    (field bytes 264 4) (field bytes 268 4) (field bytes 272 4) (field bytes 276 4)
    (field bytes 280 4)) img alloc data (some link) size

def createI2cResource (img : Image) (alloc : Bool) (data link size : ℕ) :
    Option (Option Resource) :=
  createResource 7 (fun bytes => .i2c (field bytes 0 4) (field bytes 4 2)
    (if field bytes 6 1 = 0xFF then 10 else field bytes 6 1)) img alloc data (some link) size

def createPwmResource (img : Image) (alloc : Bool) (data link size : ℕ) :
    Option (Option Resource) :=
  createResource 10 (fun bytes => .pwm (field bytes 0 4) (field bytes 4 1) (field bytes 5 1)
    (field bytes 6 4)) img alloc data (some link) size

/-- The link of the descriptor is not used. -/
def createGpuResource (img : Image) (alloc : Bool) (data _link size : ℕ) :
    Option (Option Resource) :=
  createResource 28 (fun bytes => .gpu (field bytes 0 4) (field bytes 4 4) (field bytes 8 4)
    (field bytes 12 4) (field bytes 16 4) (field bytes 20 4) (field bytes 24 4)) img alloc data
    (some 0) size

/-- A function for a descriptor at a position: the resource that it makes, if any. -/
abbrev ParseFunc := Image → (ℕ → Bool) → ℕ → Option (Option Resource)

def parseVbiosHeader : ParseFunc := fun img alloc desc => do
  let offset ← img.word (desc + 4) 4
  let size ← img.word (desc + 8) 4
  createHeaderResource img (alloc desc) offset size

/-- The other `parse_vbios_*`. -/
def parseVbiosLinked
    (create : Image → Bool → ℕ → ℕ → ℕ → Option (Option Resource)) : ParseFunc :=
  fun img alloc desc => do
    let offset ← img.word (desc + 4) 4
    let link ← img.word (desc + 3) 1
    let size ← img.word (desc + 8) 4
    create img (alloc desc) offset link size

def parseVbiosCrtc : ParseFunc := parseVbiosLinked createCrtcResource
def parseVbiosEncoder : ParseFunc := parseVbiosLinked createEncoderResource
def parseVbiosConnector : ParseFunc := parseVbiosLinked createConnectorResource
def parseVbiosI2c : ParseFunc := parseVbiosLinked createI2cResource
def parseVbiosPwm : ParseFunc := parseVbiosLinked createPwmResource
def parseVbiosGpu : ParseFunc := parseVbiosLinked createGpuResource

/-- A message with the type and the version, which are read already. -/
def parseVbiosDefault : ParseFunc := fun _ _ _ => some none

/-- Type, version and function; there are none for GPIOs, backlights and fans. -/
def tables : List (ℕ × ℕ × ParseFunc) :=
  [(0, 0, parseVbiosHeader), (1, 0, parseVbiosCrtc), (2, 0, parseVbiosEncoder),
    (3, 0, parseVbiosConnector), (4, 0, parseVbiosI2c), (5, 0, parseVbiosPwm),
    (9, 0, parseVbiosGpu)]

def getParseFunc (type ver : ℕ) : ParseFunc :=
  match tables.find? fun t => t.2.1 = ver ∧ t.1 = type with
  | some t => t.2.2
  | none => parseVbiosDefault

/-- `get_parse_func` and the call of the function. -/
def parseDesc : ParseFunc := fun img alloc desc => do
  let type ← img.word desc 2
  let ver ← img.word (desc + 2) 1
  getParseFunc type ver img alloc desc

/-- The end of the table: a descriptor of the last type, or one past the number of descriptors that
the header has, or past their total. -/
def atEnd (img : Image) (header type index : ℕ) : Option Bool :=
  if type = descMax then some true
  else do
    let descSize ← img.word (header + 80) 4
    return descSize < index || vbiosDescTotal < index

/-- The loop of `dc_vbios_parse`, at a descriptor of the table. -/
def parseLoop (img : Image) (alloc : ℕ → Bool) (header start index : ℕ)
    (resources : List Resource) : Option (List Resource) :=
  match _h : img.word (start + descBytes * index) 2 with
  | none => none
  | some type =>
    -- descriptors of headers are passed over before the end is looked for
    if type = descHeader then parseLoop img alloc header start (index + 1) resources
    else do
      if ← atEnd img header type index then return resources
      else
        let made ← parseDesc img alloc (start + descBytes * index)
        parseLoop img alloc header start (index + 1) (resources ++ made.toList)
termination_by vbiosSize - (start + descBytes * index)
decreasing_by
  all_goals
    have := (Buffer.of_word (n := 2) (by decide) ‹_›).1
    have hb : descBytes = 28 := rfl
    rw [hb] at this ⊢
    omega

/-- The first header among the resources gets the information. -/
def setInfo (info : HeaderInfo) : List Resource → List Resource
  | [] => []
  | ⟨link, .header header⟩ :: rs => ⟨link, .header { header with info := some info }⟩ :: rs
  | r :: rs => r :: setInfo info rs

/-- `vbios_get_header_resource`. -/
def getHeaderResource (resources : List Resource) : Option Header :=
  resources.findSome? fun r => match r.payload with
    | .header header => some header
    | _ => none

/-- `parse_vbios_info`, from the start of the image. The versions are cut to bytes. -/
def parseVbiosInfo (img : Image) (resources : List Resource) : Option (List Resource) :=
  match getHeaderResource resources with
  | none => some resources
  | some _ => do
    let links ← img.word 44 4
    let verMajor ← img.word 16 4
    let verMinor ← img.word 20 4
    let name ← img.read 0 16
    return setInfo ⟨links, verMajor % 256, verMinor % 256, name⟩ resources

/-- `dc_vbios_parse`; the inner none is for a result of false. With `debug`, `DRM_DEBUG` prints two
strings of the header in the image. -/
def dcVbiosParse (img : Image) (alloc : ℕ → Bool) (debug : Bool) :
    Option (Option (List Resource)) := do
  let type ← img.word vbiosDescOffset 2
  if type ≠ descHeader then return none
  else
    match ← parseDesc img alloc vbiosDescOffset with
    | none => return none
    | some resource =>
      let header ← img.word (vbiosDescOffset + 4) 4
      if debug then
        img.scan (header + 4)
        img.scan (header + 36)
      let start ← img.word (header + 76) 4
      let resources ← parseLoop img alloc header start 0 [resource]
      let resources ← parseVbiosInfo img resources
      return some resources

end Gsgpu.Vbios
