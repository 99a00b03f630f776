import MesonLens.Text.CodeTable
import MesonLens.Text.Mark

/-!
# `MesonLens.Text.Direction`: which way a text is written

Most scripts run from left to right, some from right to left, and figures and
signs follow what stands around them. The table is that of Unicode 17, without
the characters that the name of no machine has.

* `Direction.ofChar`: which way a character is written;
* `Direction.isSteady`: whether a text runs one way only.
-/

set_option autoImplicit false

namespace MesonLens

/-- Which way a character is written. -/
inductive Direction where
  | right
  | arabic
  | arabicNumber
  | number
  /-- A sign before a number. -/
  | sign
  /-- A sign at a number, as of money. -/
  | unit
  /-- A sign inside a number. -/
  | separator
  | neutral
  /-- A character that is not seen. -/
  | boundary
  | nonspacing
  | left
  deriving DecidableEq, Repr

namespace Direction

/-- Characters that are not written from left to right, with their places in `listed`. -/
def rows : List String :=
  ["5be:0 5c0:0 5c3:0 5c6:0 5d0-5ea:0 5ef-5f4:0 7c0-7ea:0 7f4-7f5:0 7fa:0 7fe-815:0 81a:0",
    "824:0 828:0 830-83e:0 840-858:0 85e:0 10800-10805:0 10808:0 1080a-10835:0 10837-10838:0",
    "1083c:0 1083f-10855:0 10857-1089e:0 108a7-108af:0 108e0-108f2:0 108f4-108f5:0",
    "108fb-1091b:0 10920-10939:0 1093f-10959:0 10980-109b7:0 109bc-109cf:0 109d2-10a00:0",
    "10a10-10a13:0 10a15-10a17:0 10a19-10a35:0 10a40-10a48:0 10a50-10a58:0 10a60-10a9f:0",
    "10ac0-10ae4:0 10aeb-10af6:0 10b00-10b35:0 10b40-10b55:0 10b58-10b72:0 10b78-10b91:0",
    "10b99-10b9c:0 10ba9-10baf:0 10c00-10c48:0 10cc0-10cf2:0 10cfa-10cff:0 10d4a-10d4f:0",
    "10d6f-10d85:0 10e80-10ea9:0 10ead:0 10eb0-10eb1:0 10f00-10f27:0 10f70-10f81:0",
    "10f86-10f89:0 10fb0-10fcb:0 10fe0-10ff6:0 1e800-1e8c4:0 1e8c7-1e8cf:0 1e922-1e943:0",
    "1e94b:0 1e950-1e959:0 1e95e-1e95f:0 608:1 60b:1 60d:1 61b:1 61d-64a:1 66d-66f:1 671-674:1",
    "679-6d5:1 6e5-6e6:1 6ee-6ef:1 6fa-70d:1 710:1 712-72f:1 74d-7a5:1 7b1:1 860-86a:1",
    "870-88f:1 8a0-8c9:1 fbb2-fbc2:1 fe73:1 10d00-10d23:1 10ec2-10ec7:1 10f30-10f45:1",
    "10f51-10f59:1 1ec71-1ecb4:1 1ed01-1ed3d:1 660-669:2 66b-66c:2 10d30-10d39:2 10d40-10d49:2",
    "10e60-10e7e:2 30-39:3 6f0-6f9:3 102e1-102fb:3 2b:4 2d:4 2212:4 23-25:5 a2-a5:5 b0-b1:5",
    "58f:5 609-60a:5 66a:5 9f2-9f3:5 9fb:5 af1:5 bf9:5 e3f:5 17db:5 2030-2032:5 20a0-20a7:5",
    "20a9-20c1:5 212e:5 2213:5 a838-a839:5 11fdd-11fe0:5 1e2ff:5 2c:6 2e-2f:6 3a:6 60c:6 2044:6",
    "21-22:7 26-2a:7 3b-40:7 5b-60:7 7b-7e:7 a1:7 a6-a7:7 a9:7 ab-ac:7 ae:7 b6-b7:7 bb:7 bf:7",
    "d7:7 f7:7 2b9-2ba:7 2c2-2cf:7 2d2-2d7:7 2de-2df:7 2e5-2ed:7 2ef-2ff:7 375:7 3f6:7 58a:7",
    "58d-58e:7 606-607:7 60e-60f:7 6de:7 6e9:7 7f6-7f9:7 bf3-bf8:7 bfa:7 c78-c7e:7 f3a-f3d:7",
    "1390-1399:7 1400:7 169b-169c:7 17f0-17f9:7 1800-180a:7 1940:7 1944-1945:7 19de-19ff:7",
    "2010:7 2012-2016:7 2018-2023:7 2027:7 2035:7 2038-203b:7 203d:7 203f-2043:7 2045-2046:7",
    "204a-2056:7 2058-205e:7 2104:7 2108:7 2114:7 2117-2118:7 211e-211f:7 2123:7 2125:7 2127:7",
    "2129:7 213a:7 2141-2144:7 214a-214d:7 218a-218b:7 2190-2211:7 2214-222b:7 222e:7",
    "2231-2328:7 232b-2335:7 237b-2394:7 2396-2429:7 2440-244a:7 24eb-26ab:7 26ad-27ff:7",
    "2900-2a0b:7 2a0d-2a73:7 2a77-2adb:7 2add-2b73:7 2b76-2bff:7 2ce5-2cea:7 2cf9-2cff:7",
    "2e00-2e5d:7 2e80-2e99:7 2e9b-2e9e:7 2ea0-2ef2:7 3001:7 3003-3004:7 3008-3020:7 3030:7",
    "3037:7 303d-303f:7 30a0:7 30fb:7 31c0-31e5:7 4dc0-4dff:7 a490-a4c6:7 a60d-a60f:7 a673:7",
    "a67e-a67f:7 a700-a721:7 a788:7 a828-a82b:7 a874-a877:7 ab6a-ab6b:7 fbc3-fbd2:7 fd3e-fd4f:7",
    "fd90-fd91:7 fdc8-fdcf:7 fdfd-fdff:7 fe45-fe46:7 10101:7 10140-1018c:7 10190-1019c:7",
    "101a0:7 1091f:7 10b39-10b3f:7 10d6e:7 10d8e-10d8f:7 10ed0-10ed8:7 11052-11065:7",
    "11660-1166c:7 11fd5-11fdc:7 11fe1-11ff1:7 16fe2:7 1cc00-1ccd5:7 1ccfa-1ccfc:7",
    "1cd00-1ceb3:7 1ceba-1ced0:7 1cee0-1cef0:7 1d1e9-1d1ea:7 1d200-1d241:7 1d245:7",
    "1d300-1d356:7 1eef0-1eef1:7 1f000-1f02b:7 1f030-1f093:7 1f0a0-1f0ae:7 1f0b1-1f0bf:7",
    "1f0c1-1f0cf:7 1f0d1-1f0f5:7 1f10b-1f10f:7 1f12f:7 1f16d-1f16f:7 1f1ad:7 1f260-1f265:7",
    "1f300-1f6d8:7 1f6dc-1f6ec:7 1f6f0-1f6fc:7 1f700-1f7d9:7 1f7e0-1f7eb:7 1f7f0:7",
    "1f800-1f80b:7 1f810-1f847:7 1f850-1f859:7 1f860-1f887:7 1f890-1f8ad:7 1f8b0-1f8bb:7",
    "1f8c0-1f8c1:7 1f8d0-1f8d8:7 1f900-1fa57:7 1fa60-1fa6d:7 1fa70-1fa7c:7 1fa80-1fa8a:7",
    "1fa8e-1fac6:7 1fac8:7 1facd-1fadc:7 1fadf-1faea:7 1faef-1faf8:7 1fb00-1fb92:7",
    "1fb94-1fbef:7 1fbfa:7 200c-200d:8"]

/-- The directions of the table. -/
def listed : List Direction :=
  [right, arabic, arabicNumber, number, sign, unit, separator, neutral, boundary]

/-- Characters that are not written from left to right. -/
def table : List ((Nat × Nat) × Nat) := CodeTable.classified rows

/-- Marks that count as characters of their own. -/
def upright : List (Nat × Nat) := CodeTable.ranges ["cbf cc6 11a07-11a08 11c3f"]

/-- Which way a character is written. -/
def ofChar (c : Char) : Direction :=
  if Mark.isNonspacing c && !CodeTable.within upright c then nonspacing
  else ((CodeTable.classOf? table c).bind (listed[·]?)).getD left

/-- Whether a character makes a text run from right to left. -/
def turns : Direction → Bool
  | right | arabic | arabicNumber => true
  | _ => false

/-- Whether characters run one way only. The first tells which way, and the last
that is no mark must be a letter or a figure of that way. From right to left
there are figures of one kind only. -/
def isSteady (ds : List Direction) : Bool :=
  let last := (ds.reverse.dropWhile (· = nonspacing)).head?.getD neutral
  match ds.head? with
  | none => true
  | some left => !ds.any turns && (last = left || last = number)
  | some right | some arabic =>
    !ds.contains left && (turns last || last = number)
      && !(ds.contains number && ds.contains arabicNumber)
  | some _ => false

end Direction

end MesonLens
