import EcmaSyntax.Text.Basic

/-!
# Alphanumeric and printable code points

Two properties over the whole code space (Unicode 14): being a letter or a number of any kind
(`alphanumeric`), which the layout of source text asks about the character before a keyword, and
being shown as itself inside a quoted text (`printable`, the plain space included). Decimal digits
of every script are listed apart, since the placeholders of a message may use any of them.
-/

namespace EcmaSyntax.CodeRuns

def alphanumeric : CodeRuns :=
  .spelled ["bCA7Q6QbB1721132131N1V1mQ4CE57111dL51224116113111K1cB1dV8eM1b2216b5bZR44b9b7LA421cR11F27F2",
    "1G11UTcHB1Eb792415M419131NP7B5O16Hb6bMbI31I17A4A1G48222M17113431G1D2134C262186422M17121212",
    "V4117A23G9131M17121531I1F24A91B8222M17121531U2134A17B116331432111232333CM1LDI8131N1G31Q321",
    "224A871148131N1A1531V2124A12H9131b521G1531A4J165I3O191127VAHbC12C79Ab3211151O111A129125119",
    "A24W1VKC81b0R5d7b7KB66443132734DC11A6b211512b71j9142711142b5142X142711142F1bL142bVEK3GGcE2",
    "63r82H1Q5c33B7IDJEIED13FbGZ1413A6AMA6cH752Y115bYAVb3b425Bb84Q6Bb1N9bHb7A6AD1cLbBH83Ab5UDbK",
    "Qb0SA3bD297b723b541612315fCbShQ262b226281111111V2bH1711331734264D5317d72265B6DcT1412A11356",
    "11111141B2455411bMu6bOc6MrIUbfGgD6432912b211512bK71GN9717171717171717c81n13P975254cE631cI1",
    "45b71cM34AWbCGWAU81FWAb3FiWhb4bSxrHbVbA2hH3SKbBGV2c8b392cV2bS521115OG13141ND6AbGEbESAO6311",
    "21b2ANPT7bBSB651P1b5N3184A6N313bE1132252111O32B73C6262697171b71E6d7DA6lyCCN4bDjaSk62cYb27C",
    "5511A1D151112121d0Xk3IbS2bIb4Cd851dRJA7Q6QBcH36262623ZC1Q1J121F2EYdFCb9CbLH2gST3bDGR4b09U5",
    "b2AU2b04815b6eE2A6b04b04b48bGCB1F17121B1F1712bViN9MA8O61b619bX6211b812312N2V2b289bCJ125X4Q",
    "bYbK4K2bBF4131TA9NV1WW81S65GbIAM2R5QN7c8c1bJbFDbF7b6CAi6V1b662c6b48MB4RIbASKNCbHQU1221Db9W",
    "P7A9b0FA41218Z31CbCE4BB114KBI1PcC711141F1A7bBHAB8222M17121531I1C5eEbHI45A53UbCK2118AeMbBb5",
    "4b0bCK1BAb2b7D17AbIRLC47f5b8d8cBC82128121OF111EAbY82b3G111S1Ab471L1BbAJ1Ic1hB91b1H1FT5Ud47",
    "121b2L19A66121WE17AiMJf91FLb7zMcUd3HfGcv8cPFbdReiHq7jfTpT7V1A6c71A6UIbCG4CA171L5Jt4cFcXc35",
    "1bUDbS211SgoG8biEb69jo7417121i3b93H48l0cm4cZ5D397AgcEKd0PdRcD1bZ122122241C11171bT1428171S1",
    "41511371jG2P1P1V1P1V1P1V1P1V1P182bEbxSVnDb9A72A41iXUIb84AbiU714121F1fH29bCbW714AvZbN1314c4",
    "b91FfE41R1211211A141111614111111312112111111111121124171414111A1H53151Hq4DczFAbcMbtqOWelD7",
    "g62ge2EhzLdi7p2bpUfh7"]

def printable : CodeRuns :=
  .spelled ["WcNYC1tU2647111K1l11b22bE231bJ8R46HM1fC1bC2bN2cTEbN2bD2F1S211B5V9c21eH18222M17113429222481",
    "42152P2316422M17121212211542233174117HA319131M1712152A131321F42C771318222M1712152922237342",
    "152IA216331432111232333C4533142161EL5D131N1G291314721321242A7M131N1A152913147262142A12DD13",
    "1bF13164G2Q131I3O191127314611186A23CbM4Tb1211151O111N2511162A24Wc01b04b31b01F1Db1fI11512kH",
    "142711142b5142X142711142F1bL142bV2W3Q6cE262rS1S3cH7M9O9KCD1312CcM2A6A6E1B6cH7b75bYAV1C4C41",
    "3b625Bb84Q6B3bQ2bT1T2B6A6E2VbDc53bB1d88bO3F3bO7b72B8b75oU262b226281111111V2bH1F1E261J2319H",
    "O8bBH22R1D3XFXFdW4sFPBLbyC2W1jP5b911512bK72EO97171717171717171dIYQ1cHCfYQC5bR1cE2cV5b71cM1",
    "cCCbB1bfhP3bJ9jOKf48fN521115ObN3A6bK8bY8C6d8BU3c61B4X1bJ9E2A2cVOSA6262697171bO4dI2A6lyCCN4",
    "bDjaSk62cYb27C55Q151112121dHGmD2bI71Wb66bF1J14451dR4fA362626233717D22C1Q1J121F2EYdF534b93",
    "cG1D31bBbAdMT3bDFS4b09U5b75U1b14Eb6eE2A6b04b04b48bGBC1F17121B1F1712bViN9MA8O61b619bX6211b8",
    "12312N1c089bCJ125X3R51bSbK4K2bE1258131T234A797bSWb34C9bI3T2R5Q74C7c8c1bJbFDbF7bA8Ai6V1b613",
    "22c6b48b6MQb2SKN9c64b09bQ15DP7A6bH1I8b39cO1KBI1b8bT711141F1B6bN5A6418222M1712151A222321615",
    "72735dVcK15Uc08AeMbI2b2YbXBA6DJbM6AbIR2F4Nf5bOcScBC82128121U122C9AbY82bA2BRc08cBDc1hB91b91",
    "EAT3W2M1Ec17121b83112198A66121b112167AiMPf31FbEDzNcUd315BfGcv8cRDbdReiHq7jfTpT7V1A4c91A6U2",
    "6AbYAA171L5Jt4cJcTc34bL7HbS5B2EgoG8biEb69jo7417121i3b93H48l0cm4cZ5D397A24faObA2N9d8bOgUAb3",
    "2c28d4LbYeAKCcF9PdRcD1bZ122122241C11171bT1428171S141511371jG2i42tIF51FbeOVg971H271215fXb93",
    "E2A42iWVHbM51biO714121F1fH2Gb5c44A42vTbWc4bPfE41R1211211A141111614111111312112111111111121",
    "124171414111A1H53151HbG2hIb84cSCF2F1F1b1AeUbKTDb84972E6eAbbC5G3D3d8CcH7C41FC4bK8A6b48U22c6",
    "jGCE2535379T3B56AA68879e31bJb1AbcMbtqOWelD7g62ge2EhzLdi7p2bpUfh7bdleTgO"]

def decimals : CodeRuns :=
  .spelled ["bCAbrQAdQAfIAlGAdAAdAAdAAdAAdAAdAAdAAdAAdAAcOAdAAbYAhQAbYAbzQAb2AiCAdKAeMA6Af2AcEAdQA6A",
    "blrQAsUAb2AfIAMAcEAlAAwsUAbnAAciMAwKAdKAbOAe0AhQAjIAdAAkEAcUAcUAlQAcUAv2AgUAbYAuzIAcEAdQA",
    "bdr8bEcnSAlQAbt2Afc6A"]

end EcmaSyntax.CodeRuns
