import EcmaSyntax.Text.Basic

/-!
# Letters, marks, digits and connectors

The general categories that identifier names are made of, for code points below `0x10000`, as
sorted runs of code points (Unicode 14). Letters are the categories `Lu`, `Ll`, `Lt`, `Lm`, `Lo`
and `Nl`; marks are `Mn` and `Mc`; digits are `Nd`; connectors are `Pc`.
-/

namespace EcmaSyntax.CodeRuns

/-- Letters: `Lu`, `Ll`, `Lt`, `Lm`, `Lo`, `Nl`, below `0x10000`. -/
def letters : CodeRuns :=
  .spelled ["bTQ6QbB1A1415N1V1mQ4CE57111dL51224116113111K1cB1dV8eM1b2216b5bZR44b9b7Z21cR11F272A321G11UT",
    "cHB1OX92415M419131NP7B5O16Hb6bMbI31I17AFG48222M17113431G1D213E2A186422M17121212V411J3G9131",
    "M17121531I1F2N1B8222M17121531U213F1H116331432111232333CM1bG8131N1G31Q32122U148131N1A1531V2",
    "12F2H9131b521G15383O65I3O191127bMbC12C7bM211151O111A12912511L4W1bR81b0R5d7b7K1G6443132734D",
    "C1Hb211512b71j9142711142b5142X142711142F1bL142bVb1GGcE263r82H1Q5c33B7IDJEIED13FbGZ141bVcH7",
    "52Y115bYAVbDU25Bb84QbIN9bHcA1cLbBH8bIUD2Ab8Qb0b53Ab0297b723b541612315fCbShQ262b22628111111",
    "1V2bH1711331734264D5317d81D1GDcT1412A1135611111141B245541Hb5cwFgD6432Cb211512bK71GN9717171",
    "717171717c81n13P975254cE631cI145b71cMHWbCGo8hb4bSxrHbVbA2hH3GA2KbBGV2c8b392cV2bS521115OG13",
    "141NTbGEbEbQ63112BSANPT7bBS1G51AA51b5N318KN313bE1132252111O32B73C6262697171b71E6d7TlyCCN4",
    "bDjaSk62cYb27C5511A1D151112121d0Xk3IbS2bIb4Cd851dRb0Q6QBcH36262623"]

/-- Combining marks: `Mn`, `Mc`, below `0x10000`. -/
def marks : CodeRuns :=
  .spelled ["vCd4hN5hDb911121211c0BbCLG1cT7262214Z1URcJBbM991O4191315b73bO8b6O1XbI31I17A2T3bK117222391A",
    "2Q123bK115422331U231B3bK1181313K2M613bK117222373A2U1bN5331491b45bJ117131472B2T3bK117131472",
    "B2S4bJ217131491A2T3bY1461118I2bP127C8cQ129B6c22R1111142bDK125B1b091cSKN443132734DC11A4tJ3",
    "baA4S3T2U2bSW91b9311d92Y1dAC4Cg35bLA1T21bCE1GbD5bBHb29C3UDbKEbCKe831L416123fIbSu0D413CdhA3",
    "dX1cOWpE6cX2bgfW14AW2c82hK13141N541cB2bEIQID1b28PDb84bBEb01bVEC182b93bE113225211b5552gK812",
    "vr41uHGGG"]

/-- Decimal digits: `Nd`, below `0x10000`. -/
def digits : CodeRuns :=
  .spelled ["bCAbrQAdQAfIAlGAdAAdAAdAAdAAdAAdAAdAAdAAdAAcOAdAAbYAhQAbYAbzQAb2AiCAdKAeMA6Af2AcEAdQA6A",
    "blrQAsUAb2AfIAMAcEAlAAwsUA"]

/-- Connector punctuation: `Pc`, below `0x10000`. -/
def connectors : CodeRuns :=
  .spelled ["cN1isN2J1cirQ2O3gN1"]

end EcmaSyntax.CodeRuns
