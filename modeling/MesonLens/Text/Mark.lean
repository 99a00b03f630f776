import MesonLens.Text.CodeTable

/-!
# `MesonLens.Text.Mark`: characters that sit on others

An accent or a vowel sign belongs to the character before it. Marks on one
character may come in different orders that mean the same; their classes tell
which orders do. The tables are those of Unicode 17, without the characters that
the name of no machine has.

* `Mark.isMark`: whether a character sits on the one before it;
* `Mark.order`: by what marks are put in order.
-/

set_option autoImplicit false

namespace MesonLens.Mark

open CodeTable

/-- Marks that take no room of their own. -/
def nonspacingRows : List String :=
  ["300-33f 342 346-34e 350-36f 483-489 591-5bd 5bf 5c1-5c2 5c4-5c5 5c7 610-61a 64b-65f 670",
    "6d6-6dc 6df-6e4 6e7-6e8 6ea-6ed 711 730-74a 7a6-7b0 7eb-7f3 7fd 816-819 81b-823 825-827",
    "829-82d 859-85b 897-89f 8ca-8e1 8e3-902 93a 93c 941-948 94d 951-957 962-963 981 9bc",
    "9c1-9c4 9cd 9e2-9e3 9fe a01-a02 a3c a41-a42 a47-a48 a4b-a4d a51 a70-a71 a75 a81-a82 abc",
    "ac1-ac5 ac7-ac8 acd ae2-ae3 afa-aff b01 b3c b3f b41-b44 b4d b55-b56 b62-b63 b82 bc0 bcd",
    "c00 c04 c3c c3e-c40 c46-c48 c4a-c4d c55-c56 c62-c63 c81 cbc cbf cc6 ccc-ccd ce2-ce3",
    "d00-d01 d3b-d3c d41-d44 d4d d62-d63 d81 dca dd2-dd4 dd6 e31 e34-e3a e47-e4e eb1 eb4-ebc",
    "ec8-ece f18-f19 f35 f37 f39 f71-f72 f74 f7a-f7e f80 f82-f84 f86-f87 f8d-f92 f94-f97",
    "f99-f9c f9e-fa1 fa3-fa6 fa8-fab fad-fb8 fba-fbc fc6 102d-1030 1032-1037 1039-103a",
    "103d-103e 1058-1059 105e-1060 1071-1074 1082 1085-1086 108d 109d 135d-135f 1712-1714",
    "1732-1733 1752-1753 1772-1773 17b7-17bd 17c6 17c9-17d3 17dd 1885-1886 18a9 1920-1922",
    "1927-1928 1932 1939-193b 1a17-1a18 1a1b 1a56 1a58-1a5e 1a60 1a62 1a65-1a6c 1a73-1a7c 1a7f",
    "1ab0-1add 1ae0-1aeb 1b00-1b03 1b34 1b36-1b3a 1b3c 1b42 1b6b-1b73 1b80-1b81 1ba2-1ba5",
    "1ba8-1ba9 1bab-1bad 1be6 1be8-1be9 1bed 1bef-1bf1 1c2c-1c33 1c36-1c37 1cd0-1cd2 1cd4-1ce0",
    "1ce2-1ce8 1ced 1cf4 1cf8-1cf9 1dc0-1dff 20d0-20f0 2cef-2cf1 2d7f 2de0-2dff 302a-302d",
    "3099-309a a66f-a672 a674-a67d a69e-a69f a6f0-a6f1 a802 a806 a80b a825-a826 a82c a8c4-a8c5",
    "a8e0-a8f1 a8ff a926-a92d a947-a951 a980-a982 a9b3 a9b6-a9b9 a9bc-a9bd a9e5 aa29-aa2e",
    "aa31-aa32 aa35-aa36 aa43 aa4c aa7c aab0 aab2-aab4 aab7-aab8 aabe-aabf aac1 aaec-aaed aaf6",
    "abe5 abe8 abed fb1e fe20-fe2f 101fd 102e0 10376-1037a 10a01-10a03 10a05-10a06 10a0c-10a0f",
    "10a38-10a3a 10a3f 10ae5-10ae6 10d24-10d27 10d69-10d6d 10eab-10eac 10efa-10eff 10f46-10f50",
    "10f82-10f85 11001 11038-11046 11070 11073-11074 1107f-11081 110b3-110b6 110b9-110ba 110c2",
    "11100-11102 11127-1112b 1112d-11134 11173 11180-11181 111b6-111be 111c9-111cc 111cf",
    "1122f-11231 11234 11236-11237 1123e 11241 112df 112e3-112ea 11300-11301 1133b-1133c 11340",
    "11366-1136c 11370-11374 113bb-113c0 113ce 113d0 113d2 113e1-113e2 11438-1143f 11442-11444",
    "11446 1145e 114b3-114b8 114ba 114bf-114c0 114c2-114c3 115b2-115b5 115bc-115bd 115bf-115c0",
    "115dc-115dd 11633-1163a 1163d 1163f-11640 116ab 116ad 116b0-116b5 116b7 1171d 1171f",
    "11722-11725 11727-1172b 1182f-11837 11839-1183a 1193b-1193c 1193e 11943 119d4-119d7",
    "119da-119db 119e0 11a01-11a0a 11a33-11a38 11a3b-11a3e 11a47 11a51-11a56 11a59-11a5b",
    "11a8a-11a96 11a98-11a99 11b60 11b62-11b64 11b66 11c30-11c36 11c38-11c3d 11c3f 11c92-11ca7",
    "11caa-11cb0 11cb2-11cb3 11cb5-11cb6 11d31-11d36 11d3a 11d3c-11d3d 11d3f-11d45 11d47",
    "11d90-11d91 11d95 11d97 11ef3-11ef4 11f00-11f01 11f36-11f3a 11f40 11f42 11f5a 13440",
    "13447-13455 1611e-16129 1612d-1612f 16af0-16af4 16b30-16b36 16f4f 16f8f-16f92 16fe4",
    "1bc9d-1bc9e 1cf00-1cf2d 1cf30-1cf46 1d167-1d169 1d17b-1d182 1d185-1d18b 1d1aa-1d1ad",
    "1d242-1d244 1da00-1da36 1da3b-1da6c 1da75 1da84 1da9b-1da9f 1daa1-1daaf 1e000-1e006",
    "1e008-1e018 1e01b-1e021 1e023-1e024 1e026-1e02a 1e08f 1e130-1e136 1e2ae 1e2ec-1e2ef",
    "1e4ec-1e4ef 1e5ee-1e5ef 1e6e3 1e6e6 1e6ee-1e6ef 1e6f5 1e8d0-1e8d6 1e944-1e94a"]

/-- Marks that take room of their own. -/
def spacingRows : List String :=
  ["903 93b 93e-940 949-94c 94e-94f 982-983 9be-9c0 9c7-9c8 9cb-9cc 9d7 a03 a3e-a40 a83",
    "abe-ac0 ac9 acb-acc b02-b03 b3e b40 b47-b48 b4b-b4c b57 bbe-bbf bc1-bc2 bc6-bc8 bca-bcc",
    "bd7 c01-c03 c41-c44 c82-c83 cbe cc0-cc4 cc7-cc8 cca-ccb cd5-cd6 cf3 d02-d03 d3e-d40",
    "d46-d48 d4a-d4c d57 d82-d83 dcf-dd1 dd8-ddf df2-df3 f3e-f3f f7f 102b-102c 1031 1038",
    "103b-103c 1056-1057 1062-1064 1067-106d 1083-1084 1087-108c 108f 109a-109c 1715 1734 17b6",
    "17be-17c5 17c7-17c8 1923-1926 1929-192b 1930-1931 1933-1938 1a19-1a1a 1a55 1a57 1a61",
    "1a63-1a64 1a6d-1a72 1b04 1b35 1b3b 1b3d-1b41 1b43-1b44 1b82 1ba1 1ba6-1ba7 1baa 1be7",
    "1bea-1bec 1bee 1bf2-1bf3 1c24-1c2b 1c34-1c35 1ce1 1cf7 302e-302f a823-a824 a827 a880-a881",
    "a8b4-a8c3 a952-a953 a983 a9b4-a9b5 a9ba-a9bb a9be-a9c0 aa2f-aa30 aa33-aa34 aa4d aa7b aa7d",
    "aaeb aaee-aaef aaf5 abe3-abe4 abe6-abe7 abe9-abea abec 11000 11002 11082 110b0-110b2",
    "110b7-110b8 1112c 11145-11146 11182 111b3-111b5 111bf-111c0 111ce 1122c-1122e 11232-11233",
    "11235 112e0-112e2 11302-11303 1133e-1133f 11341-11344 11347-11348 1134b-1134d 11357",
    "11362-11363 113b8-113ba 113c2 113c5 113c7-113ca 113cc-113cd 113cf 11435-11437 11440-11441",
    "11445 114b0-114b2 114b9 114bb-114be 114c1 115af-115b1 115b8-115bb 115be 11630-11632",
    "1163b-1163c 1163e 116ac 116ae-116af 116b6 1171e 11720-11721 11726 1182c-1182e 11838",
    "11930-11935 11937-11938 1193d 11940 11942 119d1-119d3 119dc-119df 119e4 11a39 11a57-11a58",
    "11a97 11b61 11b65 11b67 11c2f 11c3e 11ca9 11cb1 11cb4 11d8a-11d8e 11d93-11d94 11d96",
    "11ef5-11ef6 11f03 11f34-11f35 11f3e-11f3f 11f41 1612a-1612c 16f51-16f87 16ff0-16ff1",
    "1d165-1d166 1d16d-1d172"]

/-- Marks whose order matters, with their classes. -/
def classRows : List String :=
  ["334-338:1 1cd4:1 1ce2-1ce8:1 20d2-20d3:1 20d8-20da:1 20e5-20e6:1 20ea-20eb:1 10a39:1",
    "16af0-16af4:1 1bc9e:1 1d167-1d169:1 16ff0-16ff1:6 93c:7 9bc:7 a3c:7 abc:7 b3c:7 c3c:7",
    "cbc:7 1037:7 1b34:7 1be6:7 1c37:7 a9b3:7 110ba:7 11173:7 111ca:7 11236:7 112e9:7",
    "1133b-1133c:7 11446:7 114c3:7 115c0:7 116b7:7 1183a:7 11943:7 11d42:7 1e94a:7 3099-309a:8",
    "94d:9 9cd:9 a4d:9 acd:9 b4d:9 bcd:9 c4d:9 ccd:9 d3b-d3c:9 d4d:9 dca:9 e3a:9 eba:9 f84:9",
    "1039-103a:9 1714-1715:9 1734:9 17d2:9 1a60:9 1b44:9 1baa-1bab:9 1bf2-1bf3:9 2d7f:9 a806:9",
    "a82c:9 a8c4:9 a953:9 a9c0:9 aaf6:9 abed:9 10a3f:9 11046:9 11070:9 1107f:9 110b9:9",
    "11133-11134:9 111c0:9 11235:9 112ea:9 1134d:9 113ce-113d0:9 11442:9 114c2:9 115bf:9",
    "1163f:9 116b6:9 1172b:9 11839:9 1193d-1193e:9 119e0:9 11a34:9 11a47:9 11a99:9 11c3f:9",
    "11d44-11d45:9 11d97:9 11f41-11f42:9 1612f:9 5b0:10 5b1:11 5b2:12 5b3:13 5b4:14 5b5:15",
    "5b6:16 5b7:17 5b8:18 5c7:18 5b9-5ba:19 5bb:20 5bc:21 5bd:22 5bf:23 5c1:24 5c2:25 fb1e:26",
    "64b:27 8f0:27 64c:28 8f1:28 64d:29 8f2:29 618:30 64e:30 619:31 64f:31 61a:32 650:32 651:33",
    "652:34 670:35 711:36 c55:84 c56:91 e38-e39:103 e48-e4b:107 eb8-eb9:118 ec8-ecb:122 f71:129",
    "f72:130 f7a-f7d:130 f80:130 f74:132 321-322:202 327-328:202 1dd0:202 1dce:214 31b:216",
    "f39:216 1d165-1d166:216 1d16e-1d172:216 1dfa:218 302a:218 316-319:220 31c-320:220",
    "323-326:220 329-333:220 339-33c:220 347-349:220 34d-34e:220 353-356:220 359-35a:220",
    "591:220 596:220 59b:220 5a2-5a7:220 5aa:220 5c5:220 655-656:220 65c:220 65f:220 6e3:220",
    "6ea:220 6ed:220 731:220 734:220 737-739:220 73b-73c:220 73e:220 742:220 744:220 746:220",
    "748:220 7f2:220 7fd:220 859-85b:220 899-89b:220 8cf-8d3:220 8e3:220 8e6:220 8e9:220",
    "8ed-8ef:220 8f6:220 8f9-8fa:220 952:220 f18-f19:220 f35:220 f37:220 fc6:220 108d:220",
    "193b:220 1a18:220 1a7f:220 1ab5-1aba:220 1abd:220 1abf-1ac0:220 1ac3-1ac4:220 1aca:220",
    "1add:220 1ae6:220 1b6c:220 1cd5-1cd9:220 1cdc-1cdf:220 1ced:220 1dc2:220 1dca:220 1dcf:220",
    "1df9:220 1dfd:220 1dff:220 20e8:220 20ec-20ef:220 a92b-a92d:220 aab4:220 fe27-fe2d:220",
    "101fd:220 102e0:220 10a0d:220 10a3a:220 10ae6:220 10efa-10efb:220 10efd-10eff:220",
    "10f46-10f47:220 10f4b:220 10f4d-10f50:220 10f83:220 10f85:220 1d17b-1d182:220",
    "1d18a-1d18b:220 1e4ee:220 1e5ef:220 1e8d0-1e8d6:220 59a:222 5ad:222 1939:222 302d:222",
    "302e-302f:224 1d16d:226 5ae:228 18a9:228 1df7-1df8:228 302b:228 300-314:230 33d-33f:230",
    "342:230 346:230 34a-34c:230 350-352:230 357:230 35b:230 363-36f:230 483-487:230",
    "592-595:230 597-599:230 59c-5a1:230 5a8-5a9:230 5ab-5ac:230 5af:230 5c4:230 610-617:230",
    "653-654:230 657-65b:230 65d-65e:230 6d6-6dc:230 6df-6e2:230 6e4:230 6e7-6e8:230",
    "6eb-6ec:230 730:230 732-733:230 735-736:230 73a:230 73d:230 73f-741:230 743:230 745:230",
    "747:230 749-74a:230 7eb-7f1:230 7f3:230 816-819:230 81b-823:230 825-827:230 829-82d:230",
    "897-898:230 89c-89f:230 8ca-8ce:230 8d4-8e1:230 8e4-8e5:230 8e7-8e8:230 8ea-8ec:230",
    "8f3-8f5:230 8f7-8f8:230 8fb-8ff:230 951:230 953-954:230 9fe:230 f82-f83:230 f86-f87:230",
    "135d-135f:230 17dd:230 193a:230 1a17:230 1a75-1a7c:230 1ab0-1ab4:230 1abb-1abc:230",
    "1ac1-1ac2:230 1ac5-1ac9:230 1acb-1adc:230 1ae0-1ae5:230 1ae7-1aea:230 1b6b:230",
    "1b6d-1b73:230 1cd0-1cd2:230 1cda-1cdb:230 1ce0:230 1cf4:230 1cf8-1cf9:230 1dc0-1dc1:230",
    "1dc3-1dc9:230 1dcb-1dcc:230 1dd1-1df5:230 1dfb:230 1dfe:230 20d0-20d1:230 20d4-20d7:230",
    "20db-20dc:230 20e1:230 20e7:230 20e9:230 20f0:230 2cef-2cf1:230 2de0-2dff:230 a66f:230",
    "a674-a67d:230 a69e-a69f:230 a6f0-a6f1:230 a8e0-a8f1:230 aab0:230 aab2-aab3:230",
    "aab7-aab8:230 aabe-aabf:230 aac1:230 fe20-fe26:230 fe2e-fe2f:230 10376-1037a:230 10a0f:230",
    "10a38:230 10ae5:230 10d24-10d27:230 10d69-10d6d:230 10eab-10eac:230 10f48-10f4a:230",
    "10f4c:230 10f82:230 10f84:230 11100-11102:230 11366-1136c:230 11370-11374:230 1145e:230",
    "16b30-16b36:230 1d185-1d189:230 1d1aa-1d1ad:230 1d242-1d244:230 1e000-1e006:230",
    "1e008-1e018:230 1e01b-1e021:230 1e023-1e024:230 1e026-1e02a:230 1e08f:230 1e130-1e136:230",
    "1e2ae:230 1e2ec-1e2ef:230 1e4ef:230 1e5ee:230 1e6e3:230 1e6e6:230 1e6ee-1e6ef:230",
    "1e6f5:230 1e944-1e949:230 315:232 31a:232 358:232 1df6:232 302c:232 1e4ec-1e4ed:232",
    "35c:233 35f:233 362:233 1dfc:233 35d-35e:234 360-361:234 1aeb:234 1dcd:234"]

/-- Marks that take no room of their own. -/
def nonspacing : List (Nat × Nat) := ranges nonspacingRows

/-- Marks that take room of their own. -/
def spacing : List (Nat × Nat) := ranges spacingRows

/-- Marks whose order matters, with their classes. -/
def classes : List ((Nat × Nat) × Nat) := classified classRows

/-- Whether a character takes no room of its own. -/
def isNonspacing (c : Char) : Bool := within nonspacing c

/-- Whether a character sits on the one before it. -/
def isMark (c : Char) : Bool := within nonspacing c || within spacing c

/-- By what marks on one character are put in order; zero for a character that
keeps its place. -/
def order (c : Char) : Nat := (classOf? classes c).getD 0

/-- The class of the signs that take the vowel away from a consonant. -/
def virama : Nat := 9

end MesonLens.Mark
